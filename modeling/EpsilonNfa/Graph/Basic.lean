import EpsilonNfa.Error

/-!
# Graphs of states

A graph is an append-only table of states. A state is reached through a *reference*, its place in
the table; beside it a state carries an *id*, an integer that is chosen by whoever makes the state.
Traversals and copies tell states apart by their ids, so two states with one id count as one there,
while references never coincide.

## Main definitions

* `TransitionTable`: the symbol transitions of one state in the order in which they were made, at
  most one for each letter.
* `State`: id, finality, transition table and the list of epsilon targets.
* `Graph`: the table of states, in which every edge leads to a state of the table.
* `Graph.addState`, `Graph.connect`, `Graph.setFinal`: the three ways in which a graph changes.

## Implementation notes

That the letters of a table differ and that edges stay inside the graph are fields of the
structures, so no traversal has to check either. Reading a graph is total: a reference that names
no state reads as a state without edges.
-/

namespace EpsilonNfa

/-- The identity of a state within its graph. -/
@[ext] structure Ref where
  /-- The place of the state in the table of states. -/
  index : Nat
deriving DecidableEq, Repr, Hashable, Inhabited

/-- The symbol transitions of a state, oldest first. -/
@[ext] structure TransitionTable where
  /-- Letters with the states that they lead to. -/
  entries : List (Symbol × Ref) := []
  /-- Every letter can key a table and reads something. -/
  letters : ∀ e ∈ entries, e.1.isHashable = true ∧ e.1 ≠ .epsilon := by simp
  /-- No letter occurs twice. -/
  distinct : entries.Pairwise fun d e => ¬ d.1.Same e.1 := by simp

namespace TransitionTable

instance : EmptyCollection TransitionTable := ⟨{ entries := [] }⟩

instance : Inhabited TransitionTable := ⟨∅⟩

def size (m : TransitionTable) : Nat :=
  m.entries.length

/-- The states that the transitions lead to, in their order. -/
def targets (m : TransitionTable) : List Ref :=
  m.entries.map (·.2)

/-- A table holds a letter when it has a transition on the same letter. -/
instance : Membership Symbol TransitionTable where
  mem m x := ∃ e ∈ m.entries, e.1.Same x

instance (x : Symbol) (m : TransitionTable) : Decidable (x ∈ m) :=
  inferInstanceAs (Decidable (∃ e ∈ m.entries, e.1.Same x))

theorem mem_iff {x : Symbol} {m : TransitionTable} : x ∈ m ↔ ∃ e ∈ m.entries, e.1.Same x := Iff.rfl

/-- The state that a letter leads to. -/
def find? (m : TransitionTable) (x : Symbol) : Option Ref :=
  (m.entries.find? fun e => e.1.Same x).map (·.2)

/-- Looks a letter up, which fails for a symbol that cannot key a table. -/
def lookup (m : TransitionTable) (x : Symbol) : Except Error (Option Ref) :=
  if x.isHashable then .ok (m.find? x) else .error .unhashable

/-- The table with a transition on a new letter at its end. -/
def push (m : TransitionTable) (x : Symbol) (t : Ref) (hashable : x.isHashable = true)
    (letter : x ≠ .epsilon) (fresh : x ∉ m) : TransitionTable where
  entries := m.entries ++ [(x, t)]
  letters := by
    intro e he
    rcases List.mem_append.1 he with he | he
    · exact m.letters e he
    · rw [List.mem_singleton.1 he]
      exact ⟨hashable, letter⟩
  distinct := by
    refine List.pairwise_append.2 ⟨m.distinct, List.pairwise_singleton _ _, ?_⟩
    intro d hd e he hsame
    rw [List.mem_singleton.1 he] at hsame
    exact fresh ⟨d, hd, hsame⟩

@[simp] theorem targets_push (m : TransitionTable) (x : Symbol) (t : Ref)
    (hashable : x.isHashable = true) (letter : x ≠ .epsilon) (fresh : x ∉ m) :
    (m.push x t hashable letter fresh).targets = m.targets ++ [t] := by
  simp [push, targets]

end TransitionTable

/-- A state of an automaton. -/
structure State where
  /-- The integer by which traversals know the state. -/
  id : Int
  isFinal : Bool := false
  /-- The transitions that read a letter. -/
  onSymbol : TransitionTable := ∅
  /-- The states that are reached without reading, oldest edge first, repetitions kept. -/
  onEpsilon : List Ref := []

namespace State

def isolated (id : Int) (isFinal : Bool) : State :=
  { id := id, isFinal := isFinal }

instance : Inhabited State := ⟨isolated 0 false⟩

/-- The states one edge away: targets of letters first, then those of epsilon edges. -/
def targets (s : State) : List Ref :=
  s.onSymbol.targets ++ s.onEpsilon

/-- The labelled edges, in the order of `targets`. -/
def edges (s : State) : List (Symbol × Ref) :=
  s.onSymbol.entries ++ s.onEpsilon.map (Symbol.epsilon, ·)

@[simp] theorem targets_isolated (id : Int) (isFinal : Bool) :
    (isolated id isFinal).targets = [] := rfl

theorem map_snd_edges (s : State) : s.edges.map (·.2) = s.targets := by
  simp [edges, targets, TransitionTable.targets, Function.comp_def]

/-- The state with an edge to `t` on `x` at the end of its edges of that kind. Epsilon may occur any
number of times; a letter must be able to key a table and must be new. -/
def connect (s : State) (x : Symbol) (t : Ref) : Except Error State :=
  if letter : x = .epsilon then
    .ok { s with onEpsilon := s.onEpsilon ++ [t] }
  else if hashable : x.isHashable = true then
    if fresh : x ∈ s.onSymbol then .error (.duplicateTransition s.id x)
    else .ok { s with onSymbol := s.onSymbol.push x t hashable letter fresh }
  else .error .unhashable

/-- Connecting a state gives it one new target. -/
theorem mem_targets_of_connect {s s' : State} {x : Symbol} {t r : Ref}
    (h : s.connect x t = .ok s') : r ∈ s'.targets ↔ r ∈ s.targets ∨ r = t := by
  unfold connect at h
  split at h
  · cases h
    simp [targets, or_assoc]
  · split at h
    · split at h
      · cases h
      · cases h
        simp only [targets, TransitionTable.targets_push, List.mem_append, List.mem_singleton]
        exact or_right_comm
    · cases h

end State

/-- A table of states that is closed under following edges. -/
@[ext] structure Graph where
  /-- The states, oldest first. -/
  states : Array State := #[]
  /-- Every edge leads to a state of the table. -/
  closed : ∀ s ∈ states, ∀ t ∈ s.targets, t.index < states.size := by simp

namespace Graph

instance : EmptyCollection Graph := ⟨{ states := #[] }⟩

instance : Inhabited Graph := ⟨∅⟩

def size (g : Graph) : Nat :=
  g.states.size

/-- A reference belongs to the graph when it names one of its states. -/
instance : Membership Ref Graph where
  mem g r := r.index < g.size

instance (r : Ref) (g : Graph) : Decidable (r ∈ g) :=
  inferInstanceAs (Decidable (r.index < g.size))

theorem mem_iff {r : Ref} {g : Graph} : r ∈ g ↔ r.index < g.size := Iff.rfl

/-- The state that a reference names. -/
def state (g : Graph) (r : Ref) : State :=
  g.states[r.index]?.getD default

def refs (g : Graph) : List Ref :=
  (List.range g.size).map Ref.mk

@[simp] theorem mem_refs {r : Ref} {g : Graph} : r ∈ g.refs ↔ r ∈ g := by
  obtain ⟨i⟩ := r
  simp [refs, mem_iff]

theorem state_eq_default {g : Graph} {r : Ref} (h : r ∉ g) : g.state r = default := by
  have : ¬ r.index < g.states.size := h
  simp [state, this]

/-- Every edge ends in the graph. -/
theorem mem_of_mem_targets {g : Graph} {r t : Ref} (h : t ∈ (g.state r).targets) : t ∈ g := by
  by_cases hr : r.index < g.states.size
  · have hs : g.state r = g.states[r.index] := by simp [state, hr]
    rw [hs] at h
    exact g.closed _ (Array.getElem_mem hr) t h
  · rw [state_eq_default hr] at h
    exact absurd h (by simp [default])

theorem mem_of_mem_onEpsilon {g : Graph} {r t : Ref} (h : t ∈ (g.state r).onEpsilon) : t ∈ g :=
  mem_of_mem_targets (List.mem_append_right _ h)

/-- The graph with a new state that has no edges, and the reference of that state. -/
def addState (g : Graph) (id : Int) (isFinal : Bool := false) : Ref × Graph :=
  (⟨g.size⟩,
    { states := g.states.push (.isolated id isFinal)
      closed := by
        intro s hs t ht
        rw [Array.size_push]
        rcases Array.mem_push.1 hs with hs | rfl
        · exact Nat.lt_succ_of_lt (g.closed s hs t ht)
        · simp at ht })

/-- The graph with the state at `r` replaced by one whose edges stay inside the graph. -/
def replace (g : Graph) (r : Ref) (s : State) (inside : ∀ t ∈ s.targets, t ∈ g) : Graph where
  states := g.states.setIfInBounds r.index s
  closed := by
    intro s' hs' t ht
    rw [Array.size_setIfInBounds]
    rcases Array.mem_or_eq_of_mem_setIfInBounds hs' with hs' | rfl
    · exact g.closed s' hs' t ht
    · exact inside t ht

/-- The graph with an edge from `s` to `t` on `x`. The target must be a state of the graph; a source
that names no state is left alone. -/
def connect (g : Graph) (s : Ref) (x : Symbol) (t : Ref) : Except Error Graph :=
  if target : t ∈ g then
    match connected : (g.state s).connect x t with
    | .ok new => .ok <| g.replace s new fun _ hr =>
        ((State.mem_targets_of_connect connected).1 hr).elim mem_of_mem_targets (· ▸ target)
    | .error e => .error e
  else .error .unknownState

/-- The graph with the finality of a state set. -/
def setFinal (g : Graph) (r : Ref) (isFinal : Bool) : Graph :=
  g.replace r { g.state r with isFinal } fun _ ht => mem_of_mem_targets ht

/-! ### The three changes, seen through `state` -/

@[simp] theorem fst_addState (g : Graph) (id : Int) (isFinal : Bool) :
    (g.addState id isFinal).1 = ⟨g.size⟩ := rfl

@[simp] theorem size_addState (g : Graph) (id : Int) (isFinal : Bool) :
    (g.addState id isFinal).2.size = g.size + 1 := by
  simp [addState, size]

theorem state_addState (g : Graph) (id : Int) (isFinal : Bool) (r : Ref) :
    (g.addState id isFinal).2.state r =
      if r.index = g.size then .isolated id isFinal else g.state r := by
  unfold state addState size
  rw [Array.getElem?_push]
  split <;> simp_all

@[simp] theorem size_replace (g : Graph) (r : Ref) (s : State) (inside : ∀ t ∈ s.targets, t ∈ g) :
    (g.replace r s inside).size = g.size := by
  simp [replace, size]

theorem state_replace (g : Graph) (r q : Ref) (s : State) (inside : ∀ t ∈ s.targets, t ∈ g) :
    (g.replace r s inside).state q = if q = r ∧ r ∈ g then s else g.state q := by
  unfold state replace
  rw [Array.getElem?_setIfInBounds]
  by_cases hq : q = r
  · subst hq
    by_cases hr : q.index < g.states.size
    · simp [hr, mem_iff, size]
    · simp [hr, mem_iff, size]
  · have : ¬ r.index = q.index := fun h => hq (Ref.ext h.symm)
    simp [hq, this]

@[simp] theorem size_setFinal (g : Graph) (r : Ref) (isFinal : Bool) :
    (g.setFinal r isFinal).size = g.size :=
  size_replace ..

/-- What an edge adds is one more edge at its source, and nothing else changes. -/
theorem connect_eq_ok_iff {g g' : Graph} {s t : Ref} {x : Symbol} :
    g.connect s x t = .ok g' ↔
      ∃ (new : State) (inside : ∀ r ∈ new.targets, r ∈ g), t ∈ g ∧
        (g.state s).connect x t = .ok new ∧ g' = g.replace s new inside := by
  unfold connect
  constructor
  · intro h
    split at h
    · next target =>
      split at h
      · next new connected =>
        cases h
        exact ⟨new, _, target, connected, rfl⟩
      · cases h
    · cases h
  · rintro ⟨new, inside, target, connected, rfl⟩
    rw [dif_pos target]
    split
    · next new' connected' =>
      have : new' = new := by
        rw [connected] at connected'
        exact (Except.ok.inj connected').symm
      subst this
      rfl
    · next e connected' =>
      rw [connected] at connected'
      cases connected'

end Graph

end EpsilonNfa
