import EpsilonNfa.Proofs.Pulls

/-!
# The edges of a state, told from its history

A state is made without edges, and only an operation that connects it gives it any. Such a call
appends one edge, or it fails and changes nothing: a symbol that cannot key a table is refused, and
so is a letter that counts as the same as one that is there. So at any time the two kinds of edges
of a state are the calls that have succeeded, each kind in the order of its calls, whatever else was
done in between (`Workspace.transition_history`).
-/

namespace EpsilonNfa

/-- A call that gives a state an edge, with its answer. -/
structure Connection where
  label : Symbol
  target : Ref
  answer : Except Error Answer

namespace Connection

/-- The entry of the transition table that a call makes: letters do if the call succeeds. -/
def entry? (c : Connection) : Option (Symbol × Ref) :=
  match c.answer with
  | .ok _ => if c.label = .epsilon then none else some (c.label, c.target)
  | .error _ => none

/-- The target of a call with epsilon. -/
def epsilonTarget? (c : Connection) : Option Ref :=
  if c.label = .epsilon then some c.target else none

end Connection

namespace Workspace

/-- The call that an operation makes on the state `r`, with an edge to a state that is there. -/
def connection? (r : Ref) (w : Workspace) (op : Operation) : Option Connection :=
  match op with
  | .connect s x t =>
    if s = r ∧ t ∈ w.session.graph then some ⟨x, t, (op.perform w).1⟩ else none
  | _ => none

/-- The calls that operations make on the state `r`, first come first. -/
def connections (r : Ref) (w : Workspace) : List Operation → List Connection
  | [] => []
  | op :: ops => (w.connection? r op).toList ++ (w.after op).connections r ops

end Workspace

variable {g : Graph} {r s t : Ref} {x : Symbol} {w : Workspace} {op : Operation}

/-! ## One call -/

namespace State

variable {p p' : State} {l l' : List Connection}

/-- What connecting a state gives, for each kind of symbol. -/
inductive Connects (p : State) (x : Symbol) (t : Ref) : Except Error State → Prop
  | epsilon (hx : x = .epsilon) : Connects p x t (.ok { p with onEpsilon := p.onEpsilon ++ [t] })
  | letter {p' : State} (hx : x ≠ .epsilon) (hashable : x.isHashable = true) (new : x ∉ p.onSymbol)
      (entries_eq : p'.onSymbol.entries = p.onSymbol.entries ++ [(x, t)])
      (onEpsilon_eq : p'.onEpsilon = p.onEpsilon) : Connects p x t (.ok p')
  | duplicate (hx : x ≠ .epsilon) (hashable : x.isHashable = true) (known : x ∈ p.onSymbol) :
      Connects p x t (.error (.duplicateTransition p.id x))
  | unhashable (hx : x ≠ .epsilon) (unhashable : x.isHashable = false) :
      Connects p x t (.error .unhashable)

theorem connects (p : State) (x : Symbol) (t : Ref) : p.Connects x t (p.connect x t) := by
  unfold connect
  split
  · next hx => exact .epsilon hx
  · next hx =>
    split
    · next hashable =>
      split
      · next known => exact .duplicate hx hashable known
      · next new => exact .letter hx hashable new rfl rfl
    · next unhashable => exact .unhashable hx (by simpa using unhashable)

namespace Connects

variable {o : Except Error State}

theorem eq_duplicate_iff (h : p.Connects x t o) : (∃ i y, o = .error (.duplicateTransition i y)) ↔
    x.isHashable = true ∧ x ≠ .epsilon ∧ x ∈ p.onSymbol := by
  cases h with
  | epsilon hx => simp [hx]
  | letter hx hashable new => simp [new]
  | duplicate hx hashable known => simp [hx, hashable, known]
  | unhashable hx unhashable => simp [unhashable]

theorem eq_unhashable_iff (h : p.Connects x t o) :
    o = .error .unhashable ↔ x.isHashable = false := by
  cases h with
  | epsilon hx => simp [hx, Symbol.epsilon, Symbol.isHashable]
  | letter hx hashable => simp [hashable]
  | duplicate hx hashable => simp [hashable]
  | unhashable hx unhashable => simp [unhashable]

theorem eq_of_error {e : Error} (h : p.Connects x t (.error e)) :
    e = .unhashable ∨ e = .duplicateTransition p.id x := by
  cases h with
  | duplicate => exact .inr rfl
  | unhashable => exact .inl rfl

end Connects

/-- The edges of the second state are those of the first and after them those of the calls. -/
structure Keeps (p : State) (l : List Connection) (p' : State) : Prop where
  entries_eq : p'.onSymbol.entries = p.onSymbol.entries ++ l.filterMap Connection.entry?
  onEpsilon_eq : p'.onEpsilon = p.onEpsilon ++ l.filterMap Connection.epsilonTarget?

namespace Keeps

theorem of_eq (hentries : p'.onSymbol = p.onSymbol) (hepsilon : p'.onEpsilon = p.onEpsilon) :
    p.Keeps [] p' :=
  ⟨by simp [hentries], by simp [hepsilon]⟩

theorem trans {p'' : State} (h : p.Keeps l p') (h' : p'.Keeps l' p'') : p.Keeps (l ++ l') p'' where
  entries_eq := by rw [h'.entries_eq, h.entries_eq, List.filterMap_append, List.append_assoc]
  onEpsilon_eq := by rw [h'.onEpsilon_eq, h.onEpsilon_eq, List.filterMap_append, List.append_assoc]

end Keeps

/-- A call that succeeds is kept. -/
theorem keeps_of_connect (h : p.connect x t = .ok p') (answer : Answer) :
    p.Keeps [⟨x, t, .ok answer⟩] p' := by
  have hconnects := p.connects x t
  rw [h] at hconnects
  cases hconnects with
  | epsilon hx => exact ⟨by simp [Connection.entry?, hx], by simp [Connection.epsilonTarget?, hx]⟩
  | letter hx _ _ hentries hepsilon =>
    exact ⟨by simp [Connection.entry?, hx, hentries],
      by simp [Connection.epsilonTarget?, hx, hepsilon]⟩

/-- A call that fails keeps nothing. -/
theorem keeps_of_connect_error {e : Error} (h : p.connect x t = .error e) :
    p.Keeps [⟨x, t, .error e⟩] p := by
  have hconnects := p.connects x t
  rw [h] at hconnects
  have hx : x ≠ .epsilon := by
    cases hconnects with
    | duplicate hx => exact hx
    | unhashable hx => exact hx
  exact ⟨by simp [Connection.entry?], by simp [Connection.epsilonTarget?, hx]⟩

end State

namespace Graph

theorem connect_of_state_ok {p : State} (hr : r ∈ g) (ht : t ∈ g)
    (h : (g.state r).connect x t = .ok p) : ∃ g', g.connect r x t = .ok g' ∧ g'.state r = p := by
  have hinside : ∀ q ∈ p.targets, q ∈ g := fun q hq =>
    ((State.mem_targets_of_connect h).1 hq).elim mem_of_mem_targets (· ▸ ht)
  refine ⟨g.replace r p hinside, connect_eq_ok_iff.2 ⟨p, hinside, ht, h, rfl⟩, ?_⟩
  rw [state_replace, if_pos ⟨rfl, hr⟩]

theorem connect_of_state_error {e : Error} (ht : t ∈ g) (h : (g.state r).connect x t = .error e) :
    g.connect r x t = .error e := by
  unfold connect
  rw [dif_pos ht]
  split
  · next h' => cases h.symm.trans h'
  · next h' =>
    cases h.symm.trans h'
    rfl

end Graph

theorem Operation.perform_connect (w : Workspace) (s : Ref) (x : Symbol) (t : Ref) :
    (Operation.connect s x t).perform w = match w.session.graph.connect s x t with
      | .ok g => (.ok .done,
          { w with session := { w.session with heap := { w.session.heap with graph := g } } })
      | .error e => (.error e, w) := by
  show w.apply (SessionM.onHeap (HeapM.connect s x t)) _ = _
  unfold Workspace.apply
  rw [SessionM.run_onHeap, HeapM.run_connect]
  show _ = match w.session.heap.graph.connect s x t with
    | .ok g => _
    | .error e => _
  cases w.session.heap.graph.connect s x t <;> rfl

/-! ## Any operations -/

namespace Workspace

/-- A call that fails leaves all as it was, and what it leaves otherwise has one edge more. -/
theorem keeps_after_connect (hr : r ∈ w.session.graph) (x : Symbol) (t : Ref) :
    (w.session.graph.state r).Keeps (w.connection? r (.connect r x t)).toList
      ((w.after (.connect r x t)).session.graph.state r) := by
  unfold connection? after
  simp only [true_and]
  rw [Operation.perform_connect]
  by_cases ht : t ∈ w.session.graph
  · rw [if_pos ht]
    cases hconnect : (w.session.graph.state r).connect x t with
    | error e =>
      rw [Graph.connect_of_state_error ht hconnect]
      exact State.keeps_of_connect_error hconnect
    | ok p =>
      obtain ⟨g, hg, hstate⟩ := Graph.connect_of_state_ok hr ht hconnect
      rw [hg]
      have hkeeps := State.keeps_of_connect hconnect .done
      rw [← hstate] at hkeeps
      exact hkeeps
  · have hunknown : w.session.graph.connect r x t = .error .unknownState := dif_neg ht
    rw [if_neg ht, hunknown]
    exact .of_eq rfl rfl

/-- An operation gives the state the edges of its call, if it makes one. -/
theorem keeps_after (hr : r ∈ w.session.graph) (op : Operation) :
    (w.session.graph.state r).Keeps (w.connection? r op).toList
      ((w.after op).session.graph.state r) := by
  by_cases htouched : op.touched? = some r
  · cases op with
    | connect s x t =>
      cases htouched
      exact keeps_after_connect hr x t
    | setFinal q isFinal =>
      cases htouched
      have hstate : ((w.after (.setFinal r isFinal)).session.graph.state r) =
          { w.session.graph.state r with isFinal } := Graph.state_setFinal_self hr isFinal
      rw [hstate]
      exact .of_eq rfl rfl
    | _ => cases htouched
  · have hspares : w.session.Spares (· = r) (w.after op).session :=
      spares_after fun q hq heq => htouched (heq ▸ hq)
    have hnone : w.connection? r op = none := by
      cases op with
      | connect s x t => exact if_neg fun h => htouched (congrArg some h.1)
      | _ => rfl
    rw [hnone, hspares.state_eq hr rfl]
    exact .of_eq rfl rfl

theorem keeps_afterAll (hr : r ∈ w.session.graph) (ops : List Operation) :
    (w.session.graph.state r).Keeps (w.connections r ops)
      ((w.afterAll ops).session.graph.state r) := by
  induction ops generalizing w with
  | nil => exact .of_eq rfl rfl
  | cons op ops ih => exact (keeps_after hr op).trans (ih ((w.grows_after op).mem hr))

/-! ## The next call -/

/-- A call fails as connecting the state does, and then it leaves all as it was. -/
theorem perform_connect_error (hr : r ∈ w.session.graph) (ht : t ∈ w.session.graph) (x : Symbol)
    (e : Error) :
    (((Operation.connect r x t).perform w).1 = .error e ↔
        (w.session.graph.state r).connect x t = .error e) ∧
      (((Operation.connect r x t).perform w).1 = .error e →
        ((Operation.connect r x t).perform w).2 = w) := by
  rw [Operation.perform_connect]
  cases hconnect : (w.session.graph.state r).connect x t with
  | error e' =>
    rw [Graph.connect_of_state_error ht hconnect]
    simp
  | ok p =>
    obtain ⟨g, hg, -⟩ := Graph.connect_of_state_ok hr ht hconnect
    rw [hg]
    simp

/-- A state is made without edges, whoever chooses its id. -/
theorem isolated_of_made {action : HeapM Ref} {id : Int} {isFinal : Bool} {s₀ s : Session}
    (haction : action = HeapM.newStateWithId id isFinal ∨
      ∃ ids, action = HeapM.newState ids isFinal)
    (hmade : Returns (SessionM.onHeap action) s₀ r s) :
    r ∈ s.graph ∧ ∃ i, s.graph.state r = .isolated i isFinal := by
  have hadds : ∃ i, s₀.graph.AddsState (.isolated i isFinal) s.graph ∧ r = ⟨s₀.graph.size⟩ := by
    rcases haction with rfl | ⟨ids, rfl⟩
    · cases hmade
      exact ⟨_, s₀.graph.addsState id isFinal, rfl⟩
    · cases hmade
      exact ⟨_, s₀.graph.addsState (s₀.heap.nextId ids) isFinal, rfl⟩
  obtain ⟨i, hadds, rfl⟩ := hadds
  exact ⟨hadds.mem_new, i, hadds.state_new⟩

/-- A state is made without edges. Take any operations after that. The letters of its transition
table differ, also where one is a truth value and the other an integer, and none is epsilon. The
entries of the table are the calls with letters that have succeeded, in their order and with the
symbols that they were given; the epsilon edges are all calls with epsilon, repetitions kept. The
next call fails as a duplicate just if its symbol is a letter that can key a table and counts as the
same as one that is there, and fails as unhashable just if its symbol cannot key a table. What fails
changes nothing at all, and no call fails for another reason. An edge that is given in two strokes
is no other call. -/
theorem transition_history {action : HeapM Ref} {id : Int} {isFinal : Bool} {s₀ : Session}
    (haction : action = HeapM.newStateWithId id isFinal ∨
      ∃ ids, action = HeapM.newState ids isFinal)
    (hmade : Returns (SessionM.onHeap action) s₀ r w.session) (ops : List Operation) :
    let w' := w.afterAll ops
    let p := w'.session.graph.state r
    (p.onSymbol.entries.Pairwise fun d e => ¬ d.1.Same e.1) ∧
    (∀ e ∈ p.onSymbol.entries, ¬ e.1.Same .epsilon) ∧
    p.onSymbol.entries = (w.connections r ops).filterMap Connection.entry? ∧
    p.onEpsilon = (w.connections r ops).filterMap Connection.epsilonTarget? ∧
    ∀ x t, t ∈ w'.session.graph →
      let call := (Operation.connect r x t).perform w'
      ((∃ i y, call.1 = .error (.duplicateTransition i y)) ↔
        x.isHashable = true ∧ x ≠ .epsilon ∧ x ∈ p.onSymbol) ∧
      (call.1 = .error .unhashable ↔ x.isHashable = false) ∧
      (∀ e, call.1 = .error e →
        call.2 = w' ∧ (e = .unhashable ∨ e = .duplicateTransition p.id x)) ∧
      HeapM.endEdge ⟨r, x⟩ t = HeapM.connect r x t := by
  intro w' p
  obtain ⟨hr, i, hisolated⟩ := isolated_of_made haction hmade
  obtain ⟨hentries, hepsilon⟩ := keeps_afterAll hr ops
  have hr' : r ∈ w'.session.graph := (w.grows_afterAll ops).mem hr
  refine ⟨p.onSymbol.distinct, fun e he hsame => ?_, ?_, ?_, fun x t ht => ?_⟩
  · exact (p.onSymbol.letters e he).2 (Symbol.same_epsilon_iff.1 hsame)
  · rw [hisolated] at hentries
    exact hentries
  · rw [hisolated] at hepsilon
    exact hepsilon
  · have hconnects := p.connects x t
    simp only [perform_connect_error hr' ht]
    refine ⟨hconnects.eq_duplicate_iff, hconnects.eq_unhashable_iff, fun e he => ⟨?_, ?_⟩, rfl⟩
    · exact (perform_connect_error hr' ht x e).2 ((perform_connect_error hr' ht x e).1.2 he)
    · rw [he] at hconnects
      exact hconnects.eq_of_error

/-- Of six calls the second one is refused, because truth values count as integers also inside
tuples, and the fourth one because of the list. -/
theorem transition_history_mixed :
    let r : Ref := ⟨0⟩
    let w : Workspace := { session := { heap := { graph := ((∅ : Graph).addState 7).2 } } }
    let ops : List Operation :=
      [.connect r (.tuple [.bool true]) r, .connect r (.tuple [.int 1]) r, .connect r .epsilon r,
        .connect r (.list []) r, .connect r .epsilon r, .connect r (.int 1) r]
    Returns (SessionM.onHeap (HeapM.newStateWithId 7)) {} r w.session ∧
      ((w.afterAll ops).session.graph.state r).onSymbol.entries =
        [(.tuple [.bool true], r), (.int 1, r)] ∧
      ((w.afterAll ops).session.graph.state r).onEpsilon = [r, r] := by
  intro r w ops
  have hmade : Returns (SessionM.onHeap (HeapM.newStateWithId 7)) {} r w.session := rfl
  obtain ⟨-, -, hentries, hepsilon, -⟩ := transition_history (.inl rfl) hmade ops
  refine ⟨hmade, hentries.trans ?_, hepsilon.trans ?_⟩ <;> rfl

end Workspace

end EpsilonNfa
