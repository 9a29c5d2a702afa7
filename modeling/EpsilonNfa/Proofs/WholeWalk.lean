import EpsilonNfa.Proofs.EdgeTrace

/-!
# Walks that nothing interrupts

A walk reads the session anew at each pull. When nothing is done between the pulls, what it gives in
all is a list that can be read off the session in which it begins (`Walk.Yields`). For a traversal
this is `Graph.breadthFirst`, and for a walk over edges `Graph.edges`: what is left of it at any
moment are the rest of the state that it stands in and the edges of the states that the traversal
still gives (`EdgeWalk.toList`).
-/

namespace EpsilonNfa

variable {s s' s'' : Session} {w w' : Walk} {items : List Walk.Item} {g : Graph}

/-- Pulled again and again with nothing done in between, the walk gives the items of the list and
ends, and `s'` is what it leaves of the session `s`. -/
inductive Walk.Yields : Walk → Session → List Walk.Item → Session → Prop
  | ends {w w' : Walk} {s s' : Session} (h : w.next? s = (.ok none, w', s')) : Yields w s [] s'
  | item {w w' : Walk} {s s' s'' : Session} {i : Item} {items : List Item}
      (h : w.next? s = (.ok (some i), w', s')) (rest : Yields w' s' items s'') :
      Yields w s (i :: items) s''

/-- Pulled as often as the list is long, with nothing done in between, the walk gives the items of the
list, and `w'` is what is left of it and `s'` of the session `s`. -/
inductive Walk.Gives : Walk → Session → List Walk.Item → Walk → Session → Prop
  | nothing (w : Walk) (s : Session) : Gives w s [] w s
  | item {w w' w'' : Walk} {s s' s'' : Session} {i : Item} {items : List Item}
      (h : w.next? s = (.ok (some i), w', s')) (rest : Gives w' s' items w'' s'') :
      Gives w s (i :: items) w'' s''

theorem Walk.Gives.yields {w'' : Walk} (h : w.Gives s items w' s')
    (hends : w'.next? s' = (.ok none, w'', s'')) : w.Yields s items s'' := by
  induction h with
  | nothing w s => exact .ends hends
  | item hnext _ ih => exact .item hnext (ih hends)

/-! ## States -/

theorem BreadthFirst.toList_of_next?_eq_none {b : BreadthFirst} (h : b.next? g = none) :
    b.toList g = [] := by
  rw [toList]
  split
  · rfl
  · next hsome => cases h.symm.trans hsome

theorem BreadthFirst.toList_of_next?_eq_some {b b' : BreadthFirst} {r : Ref}
    (h : b.next? g = some (r, b')) : b.toList g = r :: b'.toList g := by
  rw [toList]
  split
  · next hnone => cases hnone.symm.trans h
  · next hsome =>
    cases h.symm.trans hsome
    rfl

theorem BreadthFirst.yields (s : Session) (b : BreadthFirst) :
    (Walk.states b).Yields s ((b.toList s.graph).map .state) s := by
  generalize hg : s.graph = g
  fun_induction BreadthFirst.toList b g with
  | case1 b hnone => exact .ends (by rw [Walk.next?, hg, hnone])
  | case2 b r b' hsome ih => exact .item (by rw [Walk.next?, hg, hsome]) ih

/-- A walk over states gives the states of the traversal. -/
theorem Walk.yields_statesFrom (s : Session) (start : Ref) :
    (statesFrom start).Yields s ((s.graph.breadthFirst start).map .state) s :=
  BreadthFirst.yields s (.startAt start)

/-! ## Edges -/

namespace EdgeWalk

/-- The edges of the state in which a walk stands that it has not given. -/
def Phase.toList (g : Graph) : Phase → List Edge
  | .between => []
  | .symbols u k _ => ((g.state u).onSymbol.entries.drop k).map (fun e => ⟨u, e.1, e.2⟩) ++
      (g.state u).onEpsilon.map (⟨u, .epsilon, ·⟩)
  | .epsilons u k => ((g.state u).onEpsilon.drop k).map (⟨u, .epsilon, ·⟩)

/-- The edges that a walk still gives if nothing changes the graph. -/
def toList (w : EdgeWalk) (g : Graph) : List Edge :=
  w.phase.toList g ++ (w.states.toList g).flatMap g.edgesFrom

/-- The table in which a walk stands is as large as it was when the walk came to it. -/
def Phase.Current (g : Graph) : Phase → Prop
  | .symbols u _ n => (g.state u).onSymbol.size = n
  | _ => True

/-- The outcome of a pull gives the first of the edges `l` and leaves the others to be given, or ends
the walk if there are none. It is not a failure. -/
def Leaves (g : Graph) (l : List Edge) : Except Error (Option (Edge × EdgeWalk)) → Prop
  | .ok (some (e, w)) => l = e :: w.toList g ∧ w.phase.Current g
  | .ok none => l = []
  | .error _ => False

theorem Phase.toList_symbols_zero (g : Graph) (u : Ref) (n : Nat) :
    (Phase.symbols u 0 n).toList g = g.edgesFrom u := by
  simp [toList, Graph.edgesFrom, State.edges]

theorem Pull.leaves {w : EdgeWalk} {l : List Event} {o : Except Error (Option (Edge × EdgeWalk))}
    (h : Pull g w l o) (hw : w.phase.Current g) : Leaves g (w.toList g) o := by
  induction h with
  | broken hsize => exact hsize hw
  | symbol hsize hentry =>
    refine ⟨?_, hsize⟩
    obtain ⟨hlt, hget⟩ := List.getElem?_eq_some_iff.1 hentry
    simp [toList, Phase.toList, List.drop_eq_getElem_cons hlt, hget]
  | symbolsDone _ hnone _ ih =>
    have hdrop := List.drop_eq_nil_iff.2 (List.getElem?_eq_none_iff.1 hnone)
    have hrest := ih trivial
    rw [toList, Phase.toList, List.drop_zero] at hrest
    rw [toList, Phase.toList, hdrop, List.map_nil, List.nil_append]
    exact hrest
  | epsilon hentry =>
    refine ⟨?_, trivial⟩
    obtain ⟨hlt, hget⟩ := List.getElem?_eq_some_iff.1 hentry
    simp [toList, Phase.toList, List.drop_eq_getElem_cons hlt, hget]
  | leave hnone _ ih =>
    have hdrop := List.drop_eq_nil_iff.2 (List.getElem?_eq_none_iff.1 hnone)
    rw [toList, Phase.toList, hdrop, List.map_nil]
    exact ih trivial
  | ends hnone =>
    show toList _ g = []
    rw [toList, BreadthFirst.toList_of_next?_eq_none hnone]
    rfl
  | enter hnext _ ih =>
    -- the edges of the state that the traversal gives are now those of the phase
    have hrest := ih rfl
    rw [toList, Phase.toList_symbols_zero] at hrest
    rw [toList, BreadthFirst.toList_of_next?_eq_some hnext]
    exact hrest

variable {w : EdgeWalk} {e : Edge} {l : List Edge} {o : Except Error (Option (Edge × EdgeWalk))}

theorem Leaves.of_nil (h : Leaves g [] o) : o = .ok none := by
  match o, h with
  | .ok none, _ => rfl
  | .ok (some _), h => cases h.1

theorem Leaves.of_cons (h : Leaves g (e :: l) o) :
    ∃ w, o = .ok (some (e, w)) ∧ w.phase.Current g ∧ w.toList g = l := by
  match o, h with
  | .ok (some (_, w)), ⟨hrest, hcurrent⟩ =>
    cases hrest
    exact ⟨w, rfl, hcurrent, rfl⟩

theorem yields (s : Session) (hw : w.phase.Current s.graph) :
    (Walk.edges w).Yields s ((w.toList s.graph).map .edge) s := by
  generalize hl : w.toList s.graph = l
  induction l generalizing w with
  | nil =>
    have hpull := (EdgeWalk.pull s.graph w).leaves hw
    rw [hl] at hpull
    exact .ends (by rw [Walk.next?, hpull.of_nil])
  | cons e l ih =>
    have hpull := (EdgeWalk.pull s.graph w).leaves hw
    rw [hl] at hpull
    obtain ⟨w', hnext, hcurrent, hrest⟩ := hpull.of_cons
    exact .item (by rw [Walk.next?, hnext]) (ih hcurrent hrest)

end EdgeWalk

/-- A walk over edges gives the edges, state by state, and does not fail. -/
theorem Walk.yields_edgesFrom (s : Session) (start : Ref) :
    (edgesFrom start).Yields s ((s.graph.edges start).map .edge) s :=
  EdgeWalk.yields s trivial

/-! ## Verdicts -/

section Verdicts

variable {r : AutomatonRef} {a last : Automaton} {word : List Symbol} {verdicts : List Bool}

theorem Automaton.exists_of_verdictsAfter_cons {x : Symbol}
    (h : a.verdictsAfter g (x :: word) = (last, .ok verdicts)) :
    ∃ next rest, a.step g x = .ok next ∧ next.verdictsAfter g word = (last, .ok rest) ∧
      verdicts = next.isAccepting g :: rest := by
  rw [verdictsAfter] at h
  cases hstep : a.step g x with
  | error e =>
    rw [hstep] at h
    cases h
  | ok next =>
    rcases hnext : next.verdictsAfter g word with ⟨last', err | rest⟩ <;>
      simp only [hstep, hnext] at h <;> cases h
    exact ⟨next, rest, rfl, hnext, rfl⟩

theorem Automaton.exists_of_prefixVerdicts (h : a.prefixVerdicts g word = (last, .ok verdicts)) :
    ∃ rest, a.reset.verdictsAfter g word = (last, .ok rest) ∧
      verdicts = a.reset.isAccepting g :: rest := by
  rw [prefixVerdicts] at h
  rcases hreset : a.reset.verdictsAfter g word with ⟨last', err | rest⟩ <;>
    simp only [hreset] at h <;> cases h
  exact ⟨rest, rfl, rfl⟩

/-- A pull of a walk over verdicts is a step of the walk with the automaton. -/
theorem Walk.next?_verdicts (hr : s.automaton? r = some a) (w : PrefixWalk) :
    (Walk.verdicts r w).next? s = ((w.next? s.graph a).2.2.map (·.map .verdict),
      .verdicts r (w.next? s.graph a).2.1, s.put r (w.next? s.graph a).1) := by
  rw [next?, hr]
  rfl

/-- A walk gives a verdict after each letter that is read, whatever comes behind these letters. -/
theorem PrefixWalk.gives_reading (hr : s.automaton? r = some a)
    (h : a.verdictsAfter s.graph word = (last, .ok verdicts)) (rest : List Symbol) :
    (Walk.verdicts r (.reading (word ++ rest))).Gives s (verdicts.map .verdict)
      (.verdicts r (.reading rest)) (s.put r last) := by
  induction word generalizing s a verdicts with
  | nil =>
    cases h
    rw [Session.put_self hr]
    exact .nothing _ s
  | cons x word ih =>
    obtain ⟨next, _, hstep, hrest, rfl⟩ := Automaton.exists_of_verdictsAfter_cons h
    have hgives := ih (s := s.put r next) (Session.automaton?_put_self hr next) hrest
    rw [Session.put_put] at hgives
    refine .item ?_ hgives
    rw [Walk.next?_verdicts hr, List.cons_append, next?, hstep]
    rfl

theorem Walk.gives_verdictsOf (hr : s.automaton? r = some a)
    (h : a.prefixVerdicts s.graph word = (last, .ok verdicts)) (rest : List Symbol) :
    (verdictsOf r (word ++ rest)).Gives s (verdicts.map .verdict)
      (.verdicts r (.reading rest)) (s.put r last) := by
  obtain ⟨_, hrest, rfl⟩ := Automaton.exists_of_prefixVerdicts h
  have hgives := PrefixWalk.gives_reading (s := s.put r a.reset)
    (Session.automaton?_put_self hr a.reset) hrest rest
  rw [Session.put_put] at hgives
  exact .item (next?_verdicts hr _) hgives

/-- A walk over the prefixes of a word gives their verdicts and leaves the automaton where reading
the word leaves it. -/
theorem Walk.yields_verdictsOf (hr : s.automaton? r = some a)
    (h : a.prefixVerdicts s.graph word = (last, .ok verdicts)) :
    (verdictsOf r word).Yields s (verdicts.map .verdict) (s.put r last) := by
  have hgives := gives_verdictsOf hr h []
  rw [List.append_nil] at hgives
  have hlast := Session.automaton?_put_self hr last
  have hends := next?_verdicts hlast (.reading [])
  rw [PrefixWalk.next?, Session.put_self hlast] at hends
  exact hgives.yields hends

end Verdicts

end EpsilonNfa
