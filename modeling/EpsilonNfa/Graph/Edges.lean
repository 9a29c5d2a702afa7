import EpsilonNfa.Graph.BreadthFirst

/-!
# Edges of a graph

The edges of all reachable states, as a list and as a walk that can be suspended. A walk is live: it
reads the edges of a state while the graph may change, sees every epsilon edge that is added in
time, and fails when the transition table that it is reading has grown.

## Main definitions

* `Graph.edges`: the edges of the states reachable from `start`, state by state.
* `EdgeWalk`: a suspended walk over them.
* `EdgeWalk.next?`: its next edge, with the walk suspended there.
-/

namespace EpsilonNfa

/-- An edge of a graph. An edge that reads nothing has the label epsilon. -/
structure Edge where
  source : Ref
  label : Symbol
  target : Ref
deriving DecidableEq, Repr

/-- The edges of a state in their order. -/
def Graph.edgesFrom (g : Graph) (r : Ref) : List Edge :=
  (g.state r).edges.map fun e => ⟨r, e.1, e.2⟩

/-- The edges of the states reachable from `start`, in breadth-first order of their sources. -/
def Graph.edges (g : Graph) (start : Ref) : List Edge :=
  (g.breadthFirst start).flatMap g.edgesFrom

/-- Where a walk over edges stands. -/
inductive EdgeWalk.Phase where
  /-- The edges of the last state are done. -/
  | between
  /-- In the transition table of `source`, which had `size` entries when the walk came to it. -/
  | symbols (source : Ref) (position size : Nat)
  /-- In the list of epsilon edges of `source`. -/
  | epsilons (source : Ref) (position : Nat)
deriving Repr

/-- A walk over edges between two of its steps. -/
structure EdgeWalk where
  states : BreadthFirst
  /-- Where the walk stands within the edges of the last source. -/
  phase : EdgeWalk.Phase := .between
deriving Repr

namespace EdgeWalk

/-- The walk over the edges reachable from `start`. -/
def startAt (start : Ref) : EdgeWalk :=
  { states := .startAt start }

/-- The parts of a source that a walk may still pass without giving an edge. -/
def Phase.rank : Phase → Nat
  | .between => 0
  | .epsilons .. => 1
  | .symbols .. => 2

/-- The next edge, or nothing at the end. Fails if the table being read is no longer as large as it
was when the walk came to it. -/
def next? (g : Graph) (w : EdgeWalk) : Except Error (Option (Edge × EdgeWalk)) :=
  match _ : w.phase with
  | .symbols source position size =>
    if (g.state source).onSymbol.size ≠ size then .error .changedDuringWalk
    else
      match (g.state source).onSymbol.entries[position]? with
      | some (x, t) =>
        .ok (some (⟨source, x, t⟩, { w with phase := .symbols source (position + 1) size }))
      | none => next? g { w with phase := .epsilons source 0 }
  | .epsilons source position =>
    match (g.state source).onEpsilon[position]? with
    | some t =>
      .ok (some (⟨source, .epsilon, t⟩, { w with phase := .epsilons source (position + 1) }))
    | none => next? g { w with phase := .between }
  | .between =>
    match _ : w.states.next? g with
    | none => .ok none
    | some (r, states) => next? g { states, phase := .symbols r 0 (g.state r).onSymbol.size }
termination_by 3 * w.states.work g + w.phase.rank
decreasing_by
  · simp [Phase.rank, *]
  · simp [Phase.rank, *]
  · have := BreadthFirst.work_lt_of_next? (w := w.states) (by assumption)
    simp only [Phase.rank]
    omega

end EdgeWalk

end EpsilonNfa
