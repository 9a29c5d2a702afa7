import EpsilonNfa.Proofs.LiveTraversal

/-!
# What a walk over edges does

One pull of a walk may end a state, pass states without edges and come to the next one before it
gives an edge, and none of that shows in its result. `EdgeWalk.events` says it turn by turn, with
the outcome of the pull kept apart (`EdgeWalk.Pull`), so that what holds of one turn can be proved
of a pull by induction. `EdgeWalk.Walked` is what the history of a walk says about it: the states
that were entered make a traversal, and what was given of each is where the walk stands in it. A
graph that grows keeps this, which is why the symbol edges of a state are those that it had when it
was entered, and its epsilon edges those that it had when it was left.
-/

namespace EpsilonNfa

variable {g g' : Graph} {s r u t : Ref} {x : Symbol} {k n : Nat}

namespace EdgeWalk

/-- What a walk does: it comes to a state, gives an edge of it, and leaves it when all its epsilon
edges have been given. -/
inductive Event where
  | enter (r : Ref)
  | give (e : Edge)
  | leave (r : Ref)
deriving DecidableEq, Repr

namespace Event

def entered? : Event → Option Ref
  | .enter r => some r
  | _ => none

def given? : Event → Option Edge
  | .give e => some e
  | _ => none

end Event

/-- What a walk does during one pull, in order. Like the pull it goes on until an edge is given. -/
def events (g : Graph) (w : EdgeWalk) : List Event :=
  match _ : w.phase with
  | .symbols source position size =>
    if (g.state source).onSymbol.size ≠ size then []
    else
      match (g.state source).onSymbol.entries[position]? with
      | some (x, t) => [.give ⟨source, x, t⟩]
      | none => events g { w with phase := .epsilons source 0 }
  | .epsilons source position =>
    match (g.state source).onEpsilon[position]? with
    | some t => [.give ⟨source, .epsilon, t⟩]
    | none => .leave source :: events g { w with phase := .between }
  | .between =>
    match _ : w.states.next? g with
    | none => []
    | some (r, states) =>
      .enter r :: events g { states, phase := .symbols r 0 (g.state r).onSymbol.size }
termination_by 3 * w.states.work g + w.phase.rank
decreasing_by
  · simp [Phase.rank, *]
  · simp [Phase.rank, *]
  · have := BreadthFirst.work_lt_of_next? (w := w.states) (by assumption)
    simp only [Phase.rank]
    omega

/-- A pull with what happens during it and its outcome, one rule for each turn. -/
inductive Pull (g : Graph) :
    EdgeWalk → List Event → Except Error (Option (Edge × EdgeWalk)) → Prop
  | broken {b : BreadthFirst} {u : Ref} {k n : Nat} (hsize : (g.state u).onSymbol.size ≠ n) :
      Pull g ⟨b, .symbols u k n⟩ [] (.error .changedDuringWalk)
  | symbol {b : BreadthFirst} {u t : Ref} {k n : Nat} {x : Symbol}
      (hsize : (g.state u).onSymbol.size = n)
      (hentry : (g.state u).onSymbol.entries[k]? = some (x, t)) :
      Pull g ⟨b, .symbols u k n⟩ [.give ⟨u, x, t⟩]
        (.ok (some (⟨u, x, t⟩, ⟨b, .symbols u (k + 1) n⟩)))
  | symbolsDone {b : BreadthFirst} {u : Ref} {k n : Nat} {l : List Event}
      {o : Except Error (Option (Edge × EdgeWalk))} (hsize : (g.state u).onSymbol.size = n)
      (hnone : (g.state u).onSymbol.entries[k]? = none) (rest : Pull g ⟨b, .epsilons u 0⟩ l o) :
      Pull g ⟨b, .symbols u k n⟩ l o
  | epsilon {b : BreadthFirst} {u t : Ref} {k : Nat}
      (hentry : (g.state u).onEpsilon[k]? = some t) :
      Pull g ⟨b, .epsilons u k⟩ [.give ⟨u, .epsilon, t⟩]
        (.ok (some (⟨u, .epsilon, t⟩, ⟨b, .epsilons u (k + 1)⟩)))
  | leave {b : BreadthFirst} {u : Ref} {k : Nat} {l : List Event}
      {o : Except Error (Option (Edge × EdgeWalk))} (hnone : (g.state u).onEpsilon[k]? = none)
      (rest : Pull g ⟨b, .between⟩ l o) : Pull g ⟨b, .epsilons u k⟩ (.leave u :: l) o
  | ends {b : BreadthFirst} (hnone : b.next? g = none) : Pull g ⟨b, .between⟩ [] (.ok none)
  | enter {b b' : BreadthFirst} {r : Ref} {l : List Event}
      {o : Except Error (Option (Edge × EdgeWalk))} (hnext : b.next? g = some (r, b'))
      (rest : Pull g ⟨b', .symbols r 0 (g.state r).onSymbol.size⟩ l o) :
      Pull g ⟨b, .between⟩ (.enter r :: l) o

theorem pull (g : Graph) (w : EdgeWalk) : Pull g w (w.events g) (w.next? g) := by
  fun_induction EdgeWalk.next? g w with
  | case1 w u k n hphase hsize =>
    obtain ⟨b, _⟩ := w
    cases hphase
    rw [events]
    simp only [hsize, ↓reduceIte, ne_eq, not_false_eq_true]
    exact .broken hsize
  | case2 w u k n hphase hsize x t hentry =>
    obtain ⟨b, _⟩ := w
    cases hphase
    rw [events]
    simp only [hsize, hentry, ↓reduceIte]
    exact .symbol (by simpa using hsize) hentry
  | case3 w u k n hphase hsize hnone ih =>
    obtain ⟨b, _⟩ := w
    cases hphase
    rw [events]
    simp only [hsize, hnone, ↓reduceIte]
    exact .symbolsDone (by simpa using hsize) hnone ih
  | case4 w u k hphase t hentry =>
    obtain ⟨b, _⟩ := w
    cases hphase
    rw [events]
    simp only [hentry]
    exact .epsilon hentry
  | case5 w u k hphase hnone ih =>
    obtain ⟨b, _⟩ := w
    cases hphase
    rw [events]
    simp only [hnone]
    exact .leave hnone ih
  | case6 w hphase hnone =>
    obtain ⟨b, _⟩ := w
    cases hphase
    rw [events]
    dsimp only
    split
    · exact .ends hnone
    · next hnext => cases hnone.symm.trans hnext
  | case7 w hphase r b' hnext ih =>
    obtain ⟨b, _⟩ := w
    cases hphase
    rw [events]
    dsimp only
    split
    · next hnone => cases hnone.symm.trans hnext
    · next heq =>
      cases hnext.symm.trans heq
      exact .enter hnext ih

variable {w w' : EdgeWalk} {e : Edge} {l : List Event} {o : Except Error (Option (Edge × EdgeWalk))}
variable {err : Error}

/-- The rules leave a pull no other outcome. -/
theorem Pull.next?_eq (h : Pull g w l o) : w.next? g = o := by
  induction h with
  | broken hsize =>
    rw [next?]
    simp only [hsize, ↓reduceIte, ne_eq, not_false_eq_true]
  | symbol hsize hentry =>
    rw [next?]
    simp only [hsize, hentry, ↓reduceIte, ne_eq, not_true_eq_false]
  | symbolsDone hsize hnone _ ih =>
    rw [next?]
    simp only [hsize, hnone, ↓reduceIte, ne_eq, not_true_eq_false]
    exact ih
  | epsilon hentry =>
    rw [next?]
    simp only [hentry]
  | leave hnone _ ih =>
    rw [next?]
    simp only [hnone]
    exact ih
  | ends hnone =>
    rw [next?]
    dsimp only
    split
    · rfl
    · next hnext => cases hnone.symm.trans hnext
  | enter hnext _ ih =>
    rw [next?]
    dsimp only
    split
    · next hnone => cases hnone.symm.trans hnext
    · next heq =>
      cases hnext.symm.trans heq
      exact ih

/-- The edge that a pull gives, if it gives one. -/
def outcomeEdge? : Except Error (Option (Edge × EdgeWalk)) → Option Edge
  | .ok (some (e, _)) => some e
  | _ => none

namespace Pull

/-- An edge that is given is the only one among the events. -/
theorem filterMap_given? (h : Pull g w l o) :
    l.filterMap Event.given? = (outcomeEdge? o).toList := by
  induction h with
  | broken | ends | symbol | epsilon => rfl
  | symbolsDone _ _ _ ih | leave _ _ ih | enter _ _ ih => exact ih

/-- After an edge the walk stands behind it, in the table that it has just read or in the list of
epsilon edges. -/
theorem phase_of_given (h : Pull g w l (.ok (some (e, w')))) :
    (e.label ≠ .epsilon ∧
        ∃ k, w'.phase = .symbols e.source k (g.state e.source).onSymbol.size) ∨
      (e.label = .epsilon ∧ ∃ k, w'.phase = .epsilons e.source k) := by
  generalize ho : Except.ok (some (e, w')) = o at h
  induction h with
  | broken | ends => cases ho
  | symbol hsize hentry =>
    cases ho
    exact Or.inl ⟨((TransitionTable.letters _) _ (List.mem_of_getElem? hentry)).2, _, by rw [hsize]⟩
  | epsilon =>
    cases ho
    exact Or.inr ⟨rfl, _, rfl⟩
  | symbolsDone _ _ _ ih | leave _ _ ih | enter _ _ ih => exact ih ho

/-- A pull fails only before it does anything: in a table that has grown since the walk came to
it. -/
theorem eq_of_error (h : Pull g w l (.error err)) : err = .changedDuringWalk ∧ l = [] ∧
    ∃ u k n, w.phase = .symbols u k n ∧ (g.state u).onSymbol.size ≠ n := by
  generalize ho : Except.error err = o at h
  induction h with
  | broken hsize =>
    cases ho
    exact ⟨rfl, rfl, _, _, _, rfl, hsize⟩
  | symbol | epsilon | ends => cases ho
  | symbolsDone _ _ _ ih | leave _ _ ih =>
    obtain ⟨-, -, u, k, n, hphase, -⟩ := ih ho
    cases hphase
  | enter _ _ ih =>
    obtain ⟨-, -, u, k, n, hphase, hsize⟩ := ih ho
    cases hphase
    exact absurd rfl hsize

end Pull

/-- A pull fails exactly in a table that has not the size which it had when the walk came to it. -/
theorem next?_eq_error_iff : w.next? g = .error err ↔ err = .changedDuringWalk ∧
    ∃ u k n, w.phase = .symbols u k n ∧ (g.state u).onSymbol.size ≠ n := by
  constructor
  · intro herr
    have h := pull g w
    rw [herr] at h
    exact ⟨h.eq_of_error.1, h.eq_of_error.2.2⟩
  · rintro ⟨rfl, u, k, n, hphase, hsize⟩
    obtain ⟨b, _⟩ := w
    cases hphase
    exact (Pull.broken hsize).next?_eq

/-! ## The history of a walk -/

/-- The states that the walk has come to, with the graphs that it found there. -/
def entered (log : List (Graph × Event)) : List (Graph × Ref) :=
  log.filterMap fun p => p.2.entered?.map (p.1, ·)

/-- The edges that the walk has given. -/
def given (log : List (Graph × Event)) : List Edge :=
  log.filterMap fun p => p.2.given?

/-- The edges of a list that have the given source, in their order. -/
def edgesOf (u : Ref) (l : List Edge) : List (Symbol × Ref) :=
  (l.filter (·.source = u)).map fun e => (e.label, e.target)

variable {log : List (Graph × Event)} {p q : Graph × Ref} {event : Event}

@[simp] theorem entered_concat_enter (log : List (Graph × Event)) (g : Graph) (r : Ref) :
    entered (log ++ [(g, .enter r)]) = entered log ++ [(g, r)] := by
  simp [entered, Event.entered?]

@[simp] theorem entered_concat_give (log : List (Graph × Event)) (g : Graph) (e : Edge) :
    entered (log ++ [(g, .give e)]) = entered log := by
  simp [entered, Event.entered?]

@[simp] theorem entered_concat_leave (log : List (Graph × Event)) (g : Graph) (r : Ref) :
    entered (log ++ [(g, .leave r)]) = entered log := by
  simp [entered, Event.entered?]

@[simp] theorem given_concat_give (log : List (Graph × Event)) (g : Graph) (e : Edge) :
    given (log ++ [(g, .give e)]) = given log ++ [e] := by
  simp [given, Event.given?]

@[simp] theorem given_concat_enter (log : List (Graph × Event)) (g : Graph) (r : Ref) :
    given (log ++ [(g, .enter r)]) = given log := by
  simp [given, Event.given?]

@[simp] theorem given_concat_leave (log : List (Graph × Event)) (g : Graph) (r : Ref) :
    given (log ++ [(g, .leave r)]) = given log := by
  simp [given, Event.given?]

theorem mem_entered : p ∈ entered log ↔ (p.1, .enter p.2) ∈ log := by
  obtain ⟨g, r⟩ := p
  simp only [entered, List.mem_filterMap, Option.map_eq_some_iff, Prod.mk.injEq]
  constructor
  · rintro ⟨⟨g', event⟩, hmem, r', hevent, rfl, rfl⟩
    cases event with
    | enter r =>
      cases hevent
      exact hmem
    | _ => cases hevent
  · exact fun hmem => ⟨_, hmem, r, rfl, rfl, rfl⟩

theorem mem_given : e ∈ given log ↔ ∃ g, (g, .give e) ∈ log := by
  simp only [given, List.mem_filterMap]
  constructor
  · rintro ⟨⟨g', event⟩, hmem, hevent⟩
    cases event with
    | give e =>
      cases hevent
      exact ⟨g', hmem⟩
    | _ => cases hevent
  · rintro ⟨g, hmem⟩
    exact ⟨_, hmem, rfl⟩

theorem edgesOf_concat_self (u : Ref) (l : List Edge) (x : Symbol) (t : Ref) :
    edgesOf u (l ++ [⟨u, x, t⟩]) = edgesOf u l ++ [(x, t)] := by
  simp [edgesOf]

theorem edgesOf_concat_of_ne {l : List Edge} (hne : e.source ≠ u) :
    edgesOf u (l ++ [e]) = edgesOf u l := by
  simp [edgesOf, hne]

theorem edgesOf_eq_nil {l : List Edge} (h : ∀ e ∈ l, e.source ≠ u) : edgesOf u l = [] := by
  simpa [edgesOf] using h

/-- The state that the walk stands in. -/
def Phase.source? : Phase → Option Ref
  | .between => none
  | .symbols source _ _ => some source
  | .epsilons source _ => some source

/-- The walk has left the state after giving its symbol edges as they were when it came, and its
epsilon edges as they were when it left. -/
def Left (log : List (Graph × Event)) (p : Graph × Ref) (g : Graph) : Prop :=
  ∃ q, (q, .leave p.2) ∈ log ∧ p.1.Grows q ∧ q.Grows g ∧ edgesOf p.2 (given log) =
    (p.1.state p.2).onSymbol.entries ++ (q.state p.2).onEpsilon.map (.epsilon, ·)

/-- What the walk has given of the state that it stands in. -/
def Phase.At (log : List (Graph × Event)) (g : Graph) : Phase → Prop
  | .between => True
  | .symbols u k n => ∃ p, (entered log).getLast? = some (p, u) ∧ (p.state u).onSymbol.size = n ∧
      edgesOf u (given log) <+: (p.state u).onSymbol.entries ∧ (edgesOf u (given log)).length = k
  | .epsilons u k => ∃ p l, (entered log).getLast? = some (p, u) ∧ l <+: (g.state u).onEpsilon ∧
      l.length = k ∧
      edgesOf u (given log) = (p.state u).onSymbol.entries ++ l.map (.epsilon, ·)

/-- Where a pull leaves the walk. At the end it stands between two states, and the traversal has
nothing left to give. -/
def StandsAfter (w : EdgeWalk) (g : Graph) : Except Error (Option (Edge × EdgeWalk)) → Prop
  | .ok (some (_, w')) => w = w'
  | .ok none => w.phase = .between ∧ w.states.next? g = none
  | .error _ => True

/-- The walk has done the events of `log`, each in the graph of its moment, and the graph is `g`
now. -/
structure Walked (s : Ref) (log : List (Graph × Event)) (w : EdgeWalk) (g : Graph) : Prop where
  explored : w.states.Explored s (entered log) g
  edge : ∀ q e, (q, .give e) ∈ log → q.Grows g ∧ (e.label, e.target) ∈ (q.state e.source).edges ∧
    ∃ p ∈ entered log, p.2 = e.source
  covered : ∀ e ∈ given log, w.states.last = some e.source ∨ w.states.Covers g e.target
  left : ∀ p ∈ entered log, w.phase.source? = some p.2 ∨ Left log p g
  here : w.phase.At log g

/-- A prefix gets longer by the entry behind it. -/
theorem prefix_concat_of_getElem? {α : Type} {l l' : List α} {a : α} (h : l <+: l')
    (ha : l'[l.length]? = some a) : l ++ [a] <+: l' := by
  obtain ⟨rest, rfl⟩ := h
  cases rest with
  | nil => simp at ha
  | cons b rest =>
    obtain rfl : b = a := by simpa using ha
    exact ⟨rest, by simp⟩

theorem prefix_eq_of_getElem? {α : Type} {l l' : List α} (h : l <+: l')
    (hnone : l'[l.length]? = none) : l = l' :=
  h.eq_of_length_le (List.getElem?_eq_none_iff.1 hnone)

theorem Left.concat (h : Left log p g) (hevent : ∀ e, event = .give e → e.source ≠ p.2) :
    Left (log ++ [(g', event)]) p g := by
  obtain ⟨q, hq, hpq, hqg, hedges⟩ := h
  refine ⟨q, List.mem_append_left _ hq, hpq, hqg, ?_⟩
  cases event with
  | enter r => rwa [given_concat_enter]
  | leave r => rwa [given_concat_leave]
  | give e => rwa [given_concat_give, edgesOf_concat_of_ne (hevent e rfl)]

theorem Left.grow (h : Left log p g) (hg : g.Grows g') : Left log p g' := by
  obtain ⟨q, hq, hpq, hqg, hedges⟩ := h
  exact ⟨q, hq, hpq, hqg.trans hg, hedges⟩

namespace Walked

variable {b b' : BreadthFirst} {phase phase' : Phase}

theorem start (hs : s ∈ g) : Walked s [] (startAt s) g where
  explored := .start hs
  edge := by simp
  covered := by simp [given]
  left := by simp [entered]
  here := trivial

/-- An edge that was given is still there. -/
theorem target_mem (h : Walked s log w g) (he : e ∈ given log) :
    e.target ∈ (g.state e.source).targets := by
  obtain ⟨q, hq⟩ := mem_given.1 he
  obtain ⟨hgrows, hedge, -⟩ := h.edge q e hq
  refine hgrows.mem_targets ?_
  exact State.map_snd_edges _ ▸ List.mem_map.2 ⟨_, hedge, rfl⟩

/-- The traversal knows what it was told by an edge, or is about to read it. -/
theorem target_known (h : Walked s log w g) (he : e ∈ given log) :
    w.states.Covers g e.target ∨ e.target ∈ w.states.pending g :=
  (h.covered e he).symm.imp id fun hlast => BreadthFirst.mem_pending_of_last hlast (h.target_mem he)

theorem grow (h : Walked s log w g) (hg : g.Grows g') : Walked s log w g' where
  explored := h.explored.grow hg
  edge q e he := by
    obtain ⟨hq, hedge, hsource⟩ := h.edge q e he
    exact ⟨hq.trans hg, hedge, hsource⟩
  covered e he := (h.covered e he).imp id
    fun hcovers => hcovers.grow (Graph.mem_of_mem_targets (h.target_mem he)) hg
  left p hp := (h.left p hp).imp id (·.grow hg)
  here := by
    have hat := h.here
    cases hphase : w.phase with
    | between => trivial
    | symbols u k n =>
      rw [hphase] at hat
      exact hat
    | epsilons u k =>
      rw [hphase] at hat
      obtain ⟨p, l, hlast, hprefix, hlength, hedges⟩ := hat
      have hu : u ∈ g := h.explored.mem (List.mem_of_getLast? hlast)
      exact ⟨p, l, hlast, hprefix.trans (hg.state hu).onEpsilon, hlength, hedges⟩

/-- One edge more of the state that the walk stands in. -/
theorem give (h : Walked s log ⟨b, phase⟩ g) (hsource : phase.source? = some u)
    (hsource' : phase'.source? = some u) {p : Graph} (hlast : (entered log).getLast? = some (p, u))
    (hedge : (x, t) ∈ (g.state u).edges)
    (hhere : phase'.At (log ++ [(g, .give ⟨u, x, t⟩)]) g) :
    Walked s (log ++ [(g, .give ⟨u, x, t⟩)]) ⟨b, phase'⟩ g where
  explored := by
    rw [entered_concat_give]
    exact h.explored
  edge q e he := by
    rw [entered_concat_give]
    rcases List.mem_append.1 he with he | he
    · exact h.edge q e he
    · cases List.mem_singleton.1 he
      exact ⟨.refl g, hedge, _, List.mem_of_getLast? hlast, rfl⟩
  covered e he := by
    rw [given_concat_give] at he
    rcases List.mem_append.1 he with he | he
    · exact h.covered e he
    · cases List.mem_singleton.1 he
      exact Or.inl (by rw [h.explored.last_eq, hlast]; rfl)
  left p hp := by
    rw [entered_concat_give] at hp
    by_cases hu : u = p.2
    · exact Or.inl (hsource'.trans (congrArg some hu))
    · rcases h.left p hp with heq | hleft
      · exact absurd (Option.some.inj (hsource.symm.trans heq)) hu
      · refine Or.inr (hleft.concat fun e heq => ?_)
        cases heq
        exact hu
  here := hhere

/-- A table that is as large as it was when the walk came to it is the same table. -/
theorem entries_eq (h : Walked s log ⟨b, phase⟩ g) {p : Graph}
    (hlast : (entered log).getLast? = some (p, u))
    (hsize : (g.state u).onSymbol.size = (p.state u).onSymbol.size) :
    (p.state u).onSymbol.entries = (g.state u).onSymbol.entries :=
  (h.explored.state_grows (List.mem_of_getLast? hlast)).onSymbol.eq_of_length hsize.symm

theorem symbol (h : Walked s log ⟨b, .symbols u k n⟩ g) (hsize : (g.state u).onSymbol.size = n)
    (hentry : (g.state u).onSymbol.entries[k]? = some (x, t)) :
    Walked s (log ++ [(g, .give ⟨u, x, t⟩)]) ⟨b, .symbols u (k + 1) n⟩ g := by
  obtain ⟨p, hlast, hn, hprefix, hlength⟩ := h.here
  have hedge := (State.mem_entries.1 (List.mem_of_getElem? hentry)).1
  refine h.give rfl rfl hlast hedge ⟨p, ?_, hn, ?_, ?_⟩
  · rwa [entered_concat_give]
  · rw [given_concat_give, edgesOf_concat_self]
    refine prefix_concat_of_getElem? hprefix ?_
    rw [h.entries_eq hlast (hsize.trans hn.symm), hlength, hentry]
  · rw [given_concat_give, edgesOf_concat_self, List.length_append, hlength]
    rfl

/-- All symbol edges have been given. -/
theorem symbolsDone (h : Walked s log ⟨b, .symbols u k n⟩ g)
    (hsize : (g.state u).onSymbol.size = n) (hnone : (g.state u).onSymbol.entries[k]? = none) :
    Walked s log ⟨b, .epsilons u 0⟩ g := by
  obtain ⟨p, hlast, hn, hprefix, hlength⟩ := h.here
  refine ⟨h.explored, h.edge, h.covered, h.left, p, [], hlast, List.nil_prefix, rfl, ?_⟩
  rw [List.map_nil, List.append_nil]
  refine prefix_eq_of_getElem? hprefix ?_
  rw [h.entries_eq hlast (hsize.trans hn.symm), hlength, hnone]

theorem epsilon (h : Walked s log ⟨b, .epsilons u k⟩ g)
    (hentry : (g.state u).onEpsilon[k]? = some t) :
    Walked s (log ++ [(g, .give ⟨u, .epsilon, t⟩)]) ⟨b, .epsilons u (k + 1)⟩ g := by
  obtain ⟨p, l, hlast, hprefix, rfl, hedges⟩ := h.here
  have hedge := State.mem_onEpsilon.1 (List.mem_of_getElem? hentry)
  refine h.give rfl rfl hlast hedge ⟨p, l ++ [t], ?_, prefix_concat_of_getElem? hprefix hentry,
    by simp, ?_⟩
  · rwa [entered_concat_give]
  · rw [given_concat_give, edgesOf_concat_self, hedges, List.map_append, List.append_assoc]
    rfl

/-- All epsilon edges have been given. -/
theorem leave (h : Walked s log ⟨b, .epsilons u k⟩ g) (hnone : (g.state u).onEpsilon[k]? = none) :
    Walked s (log ++ [(g, .leave u)]) ⟨b, .between⟩ g := by
  obtain ⟨p, l, hlast, hprefix, rfl, hedges⟩ := h.here
  have hgrows := h.explored.grows _ (List.mem_of_getLast? hlast)
  refine ⟨?_, ?_, ?_, ?_, trivial⟩
  · rw [entered_concat_leave]
    exact h.explored
  · intro q e he
    rw [entered_concat_leave]
    rcases List.mem_append.1 he with he | he
    · exact h.edge q e he
    · cases List.mem_singleton.1 he
  · rw [given_concat_leave]
    exact h.covered
  · intro q hq
    rw [entered_concat_leave] at hq
    refine Or.inr ?_
    rcases h.left q hq with heq | hleft
    · -- the state that is left is the one that was entered last
      obtain rfl : (p, u) = q :=
        h.explored.eq_of_id_eq (List.mem_of_getLast? hlast) hq (by rw [Option.some.inj heq])
      refine ⟨g, List.mem_append_right _ (List.mem_singleton.2 rfl), hgrows, .refl g, ?_⟩
      rw [given_concat_leave, hedges, prefix_eq_of_getElem? hprefix hnone]
    · exact hleft.concat fun e heq => by cases heq

/-- The walk comes to a new state, of which it has given nothing. The targets that were given of the
state before are among those which the traversal reads now. -/
theorem enter (h : Walked s log ⟨b, .between⟩ g) (hnext : b.next? g = some (r, b')) :
    Walked s (log ++ [(g, .enter r)]) ⟨b', .symbols r 0 (g.state r).onSymbol.size⟩ g := by
  obtain ⟨_, _, -, -, hnew, -⟩ := BreadthFirst.next?_eq_some_iff.1 hnext
  have hsources : ∀ e ∈ given log, e.source ≠ r := by
    rintro e he rfl
    obtain ⟨q, hq⟩ := mem_given.1 he
    obtain ⟨-, -, p, hp, hsource⟩ := h.edge q e hq
    exact hnew (h.explored.mem_visited_iff.2 ⟨p, hp, by rw [hsource]⟩)
  refine ⟨?_, ?_, ?_, ?_, g, ?_, rfl, ?_, ?_⟩
  · rw [entered_concat_enter]
    exact h.explored.next hnext
  · intro q e he
    rw [entered_concat_enter]
    rcases List.mem_append.1 he with he | he
    · obtain ⟨hq, hedge, p, hp, hsource⟩ := h.edge q e he
      exact ⟨hq, hedge, p, List.mem_append_left _ hp, hsource⟩
    · cases List.mem_singleton.1 he
  · intro e he
    rw [given_concat_enter] at he
    refine Or.inr ?_
    rcases h.target_known he with hcovers | hpending
    · exact hcovers.next hnext
    · exact BreadthFirst.covers_of_mem_pending hnext hpending
  · intro q hq
    rw [entered_concat_enter] at hq
    rcases List.mem_append.1 hq with hq | hq
    · rcases h.left q hq with heq | hleft
      · cases heq
      · exact Or.inr (hleft.concat fun e heq => by cases heq)
    · rw [List.mem_singleton.1 hq]
      exact Or.inl rfl
  · simp
  · rw [given_concat_enter, edgesOf_eq_nil hsources]
    exact List.nil_prefix
  · rw [given_concat_enter, edgesOf_eq_nil hsources]
    rfl

/-- A pull does its events. -/
theorem pull (h : Walked s log w g) (hpull : Pull g w l o) :
    ∃ w', Walked s (log ++ l.map (g, ·)) w' g ∧ w'.StandsAfter g o := by
  induction hpull generalizing log with
  | broken => exact ⟨_, by rwa [List.map_nil, List.append_nil], trivial⟩
  | symbol hsize hentry => exact ⟨_, h.symbol hsize hentry, rfl⟩
  | symbolsDone hsize hnone _ ih => exact ih (h.symbolsDone hsize hnone)
  | epsilon hentry => exact ⟨_, h.epsilon hentry, rfl⟩
  | leave hnone _ ih =>
    rw [List.map_cons, List.append_cons]
    exact ih (h.leave hnone)
  | ends hnone => exact ⟨_, by rwa [List.map_nil, List.append_nil], rfl, hnone⟩
  | enter hnext _ ih =>
    rw [List.map_cons, List.append_cons]
    exact ih (h.enter hnext)

/-! ## What the history says -/

/-- The source of an edge has been entered. -/
theorem exists_entered (h : Walked s log w g) (he : e ∈ given log) :
    ∃ p ∈ entered log, p.2 = e.source := by
  obtain ⟨q, hq⟩ := mem_given.1 he
  exact (h.edge q e hq).2.2

/-- What has been given of a state are the first of its symbol edges and the first of its epsilon
edges, each of them once. -/
theorem edgesOf_given (h : Walked s log w g) (u : Ref) : ∃ l l',
    l <+: (g.state u).onSymbol.entries ∧ l' <+: (g.state u).onEpsilon ∧
      edgesOf u (given log) = l ++ l'.map (.epsilon, ·) := by
  by_cases hu : ∃ p ∈ entered log, p.2 = u
  · obtain ⟨p, hp, rfl⟩ := hu
    have hsymbols := (h.explored.state_grows hp).onSymbol
    rcases h.left p hp with hsource | ⟨q, -, hpq, hqg, hedges⟩
    · have hat := h.here
      cases hphase : w.phase with
      | between =>
        rw [hphase] at hsource
        cases hsource
      | symbols u k n =>
        rw [hphase] at hsource hat
        cases hsource
        obtain ⟨q, hlast, -, hprefix, -⟩ := hat
        have hgrows := h.explored.state_grows (List.mem_of_getLast? hlast)
        exact ⟨_, [], hprefix.trans hgrows.onSymbol, List.nil_prefix, by simp⟩
      | epsilons u k =>
        rw [hphase] at hsource hat
        cases hsource
        obtain ⟨q, l, hlast, hprefix, -, hedges⟩ := hat
        have hgrows := h.explored.state_grows (List.mem_of_getLast? hlast)
        exact ⟨_, l, hgrows.onSymbol, hprefix, hedges⟩
    · have hmem := hpq.mem (h.explored.mem_log hp)
      exact ⟨_, _, hsymbols, (hqg.state hmem).onEpsilon, hedges⟩
  · refine ⟨[], [], List.nil_prefix, List.nil_prefix, edgesOf_eq_nil fun e he heq => hu ?_⟩
    obtain ⟨p, hp, hsource⟩ := h.exists_entered he
    exact ⟨p, hp, hsource.trans heq⟩

/-- Different sources have different ids. -/
theorem source_eq (h : Walked s log w g) {e' : Edge} (he : e ∈ given log) (he' : e' ∈ given log)
    (hid : (g.state e.source).id = (g.state e'.source).id) : e.source = e'.source := by
  obtain ⟨p, hp, hsource⟩ := h.exists_entered he
  obtain ⟨p', hp', hsource'⟩ := h.exists_entered he'
  rw [← hsource, ← hsource'] at hid
  rw [← hsource, ← hsource', h.explored.eq_of_id_eq hp hp' hid]

section End

variable (h : Walked s log w g) (hend : w.StandsAfter g (.ok none))
include h hend

/-- At the end all states have been left. -/
theorem left_of_mem (hp : p ∈ entered log) : Left log p g := by
  refine (h.left p hp).resolve_left ?_
  rw [hend.1]
  exact fun heq => by cases heq

/-- At the end the id of each target is that of a state which was entered, and of which edges were
given if it had any then. -/
theorem exists_entered_target (he : e ∈ given log) : ∃ p ∈ entered log,
    (g.state p.2).id = (g.state e.target).id ∧
      ((∃ e' ∈ given log, e'.source = p.2) ∨ (p.1.state p.2).edges = []) := by
  have hvisited : (g.state e.target).id ∈ w.states.visited :=
    (h.target_known he).elim (·.mem_visited hend.2)
      (BreadthFirst.next?_eq_none_iff.1 hend.2 e.target)
  obtain ⟨p, hp, hid⟩ := h.explored.mem_visited_iff.1 hvisited
  refine ⟨p, hp, hid, ?_⟩
  by_cases hwalked : ∃ e' ∈ given log, e'.source = p.2
  · exact Or.inl hwalked
  · obtain ⟨q, -, hpq, -, hedges⟩ := h.left_of_mem hend hp
    rw [edgesOf_eq_nil fun e' he' hsource => hwalked ⟨e', he', hsource⟩] at hedges
    obtain ⟨hsymbols, hepsilons⟩ := List.append_eq_nil_iff.1 hedges.symm
    have hgrows := (hpq.state (h.explored.mem_log hp)).onEpsilon
    rw [List.map_eq_nil_iff.1 hepsilons, List.prefix_nil] at hgrows
    exact Or.inr (by rw [State.edges, hsymbols, hgrows]; rfl)

end End

end Walked

end EdgeWalk

end EpsilonNfa
