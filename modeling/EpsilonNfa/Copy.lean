import EpsilonNfa.Graph.BreadthFirst
import EpsilonNfa.Heap
import EpsilonNfa.IdMap

/-!
# Copies of a graph

A copy of the graph below a state is made through a table of *images* from ids to copies. A state
whose id has an image is not copied again, so shared structure and cycles survive, and a caller who
passes the table on gets copies that share their common part.

## Main definitions

* `Copying`: a copy in progress.
* `HeapM.copyGraph`: the copy of everything below a state.
-/

namespace EpsilonNfa

/-- A copy in progress. -/
structure Copying where
  heap : Heap
  /-- The copies, by the ids of the states that they stand for. -/
  images : IdMap
  /-- States with copies that have no edges yet, first come first. -/
  pending : List (Ref × Ref)

namespace Copying

variable (source : Graph) (ids : IdSource)

/-- The copy of a state: the image of its id, which is made now if there is none. -/
def image (c : Copying) (old : Ref) : Ref × Copying :=
  match c.images.find? (source.state old).id with
  | some new => (new, c)
  | none =>
    match c.heap.addState ids (source.state old).isFinal with
    | (new, heap) =>
      (new,
        { heap
          images := c.images.insert (source.state old).id new
          pending := c.pending ++ [(old, new)] })

/-- Gives the copy `new` the image of one edge. -/
def copyEdge (new : Ref) (c : Copying) (edge : Symbol × Ref) : Except Error Copying :=
  match c.image source ids edge.2 with
  | (target, ⟨⟨graph, nextIds⟩, images, pending⟩) => do
    let graph ← graph.connect new edge.1 target
    return { heap := { graph, nextIds }, images, pending }

/-- Gives the copy `new` the images of all edges of `old`. -/
def copyEdges (c : Copying) (old new : Ref) : Except Error Copying :=
  (source.state old).edges.foldlM (copyEdge source ids new) c

/-- An upper bound on the copies that still lack their edges. -/
def work (c : Copying) : Nat :=
  (source.unvisited c.images.keys).length + c.pending.length

variable {source}

theorem work_image_le {old : Ref} (hold : old ∈ source) (c : Copying) :
    (c.image source ids old).2.work source ≤ c.work source := by
  unfold image
  split
  · exact Nat.le_refl _
  · next hnone =>
    have hfewer := IdMap.length_unvisited_insert_lt
      (q := (c.heap.addState ids (source.state old).isFinal).1) hold
      (IdMap.find?_eq_none_iff.1 hnone)
    simp only [work, List.length_append, List.length_cons, List.length_nil]
    omega

variable {ids}

theorem work_copyEdge_le {new : Ref} {edge : Symbol × Ref} (htarget : edge.2 ∈ source)
    {c c' : Copying} (h : copyEdge source ids new c edge = .ok c') :
    c'.work source ≤ c.work source := by
  have himage := work_image_le ids htarget c
  unfold copyEdge at h
  split at h
  next target graph nextIds images pending heq =>
  rw [heq] at himage
  cases hgraph : graph.connect new edge.1 target with
  | error e => simp [hgraph, bind, Except.bind] at h
  | ok graph' =>
    simp only [hgraph, bind, Except.bind, pure, Except.pure, Except.ok.injEq] at h
    subst h
    exact himage

theorem work_copyEdges_le {old new : Ref} {c c' : Copying}
    (h : copyEdges source ids c old new = .ok c') : c'.work source ≤ c.work source := by
  have hall : ∀ l : List (Symbol × Ref), (∀ e ∈ l, e.2 ∈ source) → ∀ c : Copying,
      l.foldlM (copyEdge source ids new) c = .ok c' → c'.work source ≤ c.work source := by
    intro l
    induction l with
    | nil =>
      intro _ c h
      cases h
      exact Nat.le_refl _
    | cons e l ih =>
      intro hl c h
      rw [List.foldlM_cons] at h
      cases hstep : copyEdge source ids new c e with
      | error err => simp [hstep, bind, Except.bind] at h
      | ok middle =>
        rw [hstep] at h
        exact Nat.le_trans (ih (fun q hq => hl q (List.mem_cons_of_mem _ hq)) middle h)
          (work_copyEdge_le (hl e List.mem_cons_self) hstep)
  refine hall _ (fun e he => ?_) c h
  exact Graph.mem_of_mem_targets
    (State.map_snd_edges _ ▸ List.mem_map.2 ⟨e, he, rfl⟩)

variable (source ids)

/-- Gives every copy its edges, and copies what they lead to. -/
def run (c : Copying) : Except Error Copying :=
  match _ : c.pending with
  | [] => .ok c
  | (old, new) :: rest =>
    match _ : copyEdges source ids { c with pending := rest } old new with
    | .error e => .error e
    | .ok c' => run c'
termination_by c.work source
decreasing_by
  -- a state that is copied meanwhile was counted before as one without an image
  refine Nat.lt_of_le_of_lt (work_copyEdges_le (by assumption)) ?_
  simp [work, *]

end Copying

/-- The least id above the ids reachable from `start`, the ids with an image and those of their
images. -/
def firstFreeId (g : Graph) (start : Ref) (images : IdMap) : Int :=
  let used := (g.breadthFirst start).map (fun r => (g.state r).id) ++ images.keys
    ++ images.values.map fun r => (g.state r).id
  used.max?.getD 0 + 1

/-- Copies the graph below `start` and gives the copy of `start` with the table of all images. The
copies take their ids from `ids`, and without a source from one of their own that begins at the
first free id. -/
def HeapM.copyGraph (start : Ref) (images : IdMap := ∅) (ids : Option IdSource := none) :
    HeapM (Ref × IdMap) := do
  let source := (← get).graph
  let ids ← ids.getDM (newSource (firstFreeId source start images))
  let (root, begun) := Copying.image source ids { heap := ← get, images, pending := [] } start
  let done ← begun.run source ids
  set done.heap
  return (root, done.images)

end EpsilonNfa
