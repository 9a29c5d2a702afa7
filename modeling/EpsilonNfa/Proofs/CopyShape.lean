import EpsilonNfa.Proofs.Combinators
import EpsilonNfa.Proofs.GraphShape

/-!
# Copies of graphs whose ids collide

A copy takes states of one id for one state, as a traversal does, and it keeps the same one of them:
the first that a traversal meets. So a copy that begins without images is the shape that a traversal
of the original sees (`Copied.isIso_shape`), and has ids of its own that tell its states apart. A
state is found in the copy exactly when its id is one that the traversal meets
(`Copied.returns_resolve_of_mem`, `Copied.run_resolve_of_not_mem`).
-/

namespace EpsilonNfa

variable {h h' h'' : Heap} {images images' : IdMap} {ids : IdSource} {start root old r t : Ref}
variable {copies : List (Ref × Ref)} {i : Int}

/-- The states that are copied are those that a traversal visits, in its order. -/
theorem exists_copied_breadthFirst (h : Heap) (ids : IdSource) (start : Ref) :
    ∃ root images h' copies,
      Returns (HeapM.copyGraph start ∅ (some ids)) h (root, images) h' ∧
      Copied h ∅ ids start root images h' copies ∧
      copies.map (·.1) = h.graph.breadthFirst start := by
  obtain ⟨root, images, h', copies, hreturns, hc, hvisits⟩ :=
    exists_copied_inOrder h ∅ ids start fun _ hq => absurd hq List.not_mem_nil
  exact ⟨root, images, h', copies, hreturns, hc,
    Visits.unique hvisits (h.graph.visits_breadthFirst start)⟩

/-- The image of an id, and the state `r` if it has none. -/
def IdMap.imageOfId (images : IdMap) (r : Ref) (i : Int) : Ref :=
  (images.find? i).getD r

namespace Copied

variable (hc : Copied h ∅ ids start root images' h' copies)
  (horder : copies.map (·.1) = h.graph.breadthFirst start)
include hc horder

omit hc in
theorem exists_mem_copies (hr : r ∈ h.graph.breadthFirst start) : ∃ q, (r, q) ∈ copies := by
  rw [← horder, List.mem_map] at hr
  obtain ⟨p, hp, rfl⟩ := hr
  exact ⟨p.2, hp⟩

theorem keys_eq_idsBelow : images'.keys = h.graph.idsBelow start := by
  rw [IdMap.keys, hc.records.entries_eq, Graph.idsBelow, ← horder]
  simp [show (∅ : IdMap).entries = [] from rfl]

theorem find?_imageOfId (hi : i ∈ h.graph.idsBelow start) :
    images'.find? i = some (images'.imageOfId start i) := by
  rw [← hc.keys_eq_idsBelow horder, IdMap.mem_keys, ← IdMap.find?_isSome_iff] at hi
  obtain ⟨q, hq⟩ := Option.isSome_iff_exists.1 hi
  rw [IdMap.imageOfId, hq, Option.getD_some]

/-- The copy is the shape that a traversal of the original sees. -/
theorem isIso_shape :
    (h.graph.shape start).IsIso (images'.imageOfId start) (h'.graph.below root) := by
  have himage : ∀ {r q}, (r, q) ∈ copies →
      images'.imageOfId start (h.graph.state r).id = q := by
    intro r q hp
    rw [IdMap.imageOfId, hc.find?_of_mem hp]
    rfl
  refine ⟨?_, fun {i} hi => ?_, fun {i} hi => ?_, fun {i j} hi hj heq => ?_⟩
  · show images'.imageOfId start (h.graph.state start).id = root
    rw [IdMap.imageOfId, hc.root_eq, Option.getD_some]
  · obtain ⟨r, hr, rfl⟩ := Graph.mem_idsBelow.1 (Graph.reaches_shape.1 hi)
    obtain ⟨q, hp⟩ := exists_mem_copies horder hr
    rw [himage hp, Graph.isFinal_shape hr]
    exact hc.records.isFinal_eq _ hp
  · obtain ⟨r, hr, rfl⟩ := Graph.mem_idsBelow.1 (Graph.reaches_shape.1 hi)
    obtain ⟨q, hp⟩ := exists_mem_copies horder hr
    rw [himage hp, Graph.edges_shape hr, List.map_map]
    refine (Graph.eq_map_imageOf (hc.edges _ hp)).trans (List.map_congr_left fun e he => ?_)
    have htarget := hc.find?_imageOf_target hp he
    rw [Function.comp, IdMap.imageOfId, htarget, Option.getD_some]
  · have hnew : ∀ i, i ∉ (∅ : IdMap) := fun i hi => by simp [← IdMap.mem_keys] at hi
    have hi' := hc.find?_imageOfId horder (Graph.reaches_shape.1 hi)
    have hj' := hc.find?_imageOfId horder (Graph.reaches_shape.1 hj)
    exact hc.eq_of_find? (heq ▸ hi') hj' (hnew i) (hnew j)

/-- A state is found by the new id of its image, also on a heap that has grown since. -/
theorem returns_resolve_of_mem (hids : ids ∈ h) (hh : h'.Extends h'')
    (hold : (h''.graph.state old).id = i) (hi : i ∈ h.graph.idsBelow start) :
    Returns (Automaton.resolve root images' old) h'' (images'.imageOfId start i) h'' := by
  subst hold
  refine hc.returns_resolve_of_find? hids hh (hc.find?_imageOfId horder hi) ?_
  exact Graph.reaches_below.1 <|
    (hc.isIso_shape horder).reaches_iff.2 ⟨_, Graph.reaches_shape.2 hi, rfl⟩

theorem run_resolve_of_not_mem (hold : (h''.graph.state old).id = i)
    (hi : i ∉ h.graph.idsBelow start) :
    (Automaton.resolve root images' old).run.run h'' = (.error (.notCopied i), h'') := by
  have hnone : images'.find? i = none := by
    rw [IdMap.find?_eq_none_iff, ← IdMap.mem_keys, hc.keys_eq_idsBelow horder]
    exact hi
  unfold Automaton.resolve
  simp only [run_bind, run_get, hold, hnone]
  rfl

end Copied

end EpsilonNfa
