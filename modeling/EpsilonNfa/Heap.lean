import EpsilonNfa.Graph.Basic

/-!
# Heaps

A heap is a graph together with the *id sources* from which the states of a building session get
their ids. A source is a counter that several builders may share; a traversal that should tell all
states apart needs their ids to come from one source.

`HeapM` is the monad of operations that build states. What such an operation did before it failed
stays done: the states that it made and the ids that it drew.
-/

namespace EpsilonNfa

/-- The identity of an id source within its heap. -/
structure IdSource where
  /-- The place of the source among the sources of the heap. -/
  index : Nat
deriving DecidableEq, Repr, Inhabited

/-- A graph and the id sources of its states. -/
structure Heap where
  graph : Graph := ∅
  /-- For each source the id that it gives next. -/
  nextIds : Array Int := #[]
deriving Inhabited

namespace Heap

/-- The heap with a new source, whose first id is `first`. -/
def addSource (h : Heap) (first : Int) : IdSource × Heap :=
  (⟨h.nextIds.size⟩, { h with nextIds := h.nextIds.push first })

/-- The id that a source gives next. -/
def nextId (h : Heap) (ids : IdSource) : Int :=
  h.nextIds[ids.index]?.getD 0

/-- Draws an id. The next one of the same source is larger by one. -/
def draw (h : Heap) (ids : IdSource) : Int × Heap :=
  (h.nextId ids, { h with nextIds := h.nextIds.modify ids.index (· + 1) })

/-- The heap with a new state, whose id is drawn from `ids`. -/
def addState (h : Heap) (ids : IdSource) (isFinal : Bool := false) : Ref × Heap :=
  match h.draw ids with
  | (id, { graph, nextIds }) =>
    match graph.addState id isFinal with
    | (r, graph) => (r, { graph, nextIds })

end Heap

/-- Operations that build states in a heap and may fail. -/
abbrev HeapM := ExceptT Error (StateM Heap)

namespace HeapM

/-- A step on the heap that cannot fail. -/
def step {α : Type} (f : Heap → α × Heap) : HeapM α :=
  modifyGet f

def newSource (first : Int := 0) : HeapM IdSource :=
  step (·.addSource first)

/-- A new state with an id from `ids`. -/
def newState (ids : IdSource) (isFinal : Bool := false) : HeapM Ref :=
  step (·.addState ids isFinal)

/-- A new state with an id of the caller's choice. -/
def newStateWithId (id : Int) (isFinal : Bool := false) : HeapM Ref :=
  step fun { graph, nextIds } =>
    match graph.addState id isFinal with
    | (r, graph) => (r, { graph, nextIds })

def connect (s : Ref) (x : Symbol) (t : Ref) : HeapM Unit := do
  let graph ← (← get).graph.connect s x t
  modify ({ · with graph })

/-- An edge that has left its source and has not come to its target. -/
structure HalfEdge where
  source : Ref
  label : Symbol
deriving DecidableEq, Repr

/-- Ends an edge at a state. -/
def endEdge (e : HalfEdge) (t : Ref) : HeapM Unit :=
  connect e.source e.label t

def setFinal (r : Ref) (isFinal : Bool) : HeapM Unit :=
  modify fun { graph, nextIds } => { graph := graph.setFinal r isFinal, nextIds }

end HeapM

end EpsilonNfa
