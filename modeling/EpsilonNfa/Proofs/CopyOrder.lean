import EpsilonNfa.Proofs.ConcatShape
import EpsilonNfa.Proofs.Growing
import EpsilonNfa.Proofs.Listing

/-!
# Copies in the order of a traversal

A traversal marks an id when a state with it leaves the queue, a copy when one enters its queue.
They still agree on which states stand for their ids, and on the order of these
(`exists_copied_breadthFirst`). The copy is an isomorphic shape, and isomorphic shapes are traversed
alike, so a traversal of the copy gives the copies in the order in which they were made
(`Copied.breadthFirst_eq`): the first id that the source has given is the id of the first of them,
and so on. It follows that an original and its copy have one listing (`Copied.listing_eq`).
-/

namespace EpsilonNfa

variable {h h' : Heap} {images images' : IdMap} {ids : IdSource} {start root : Ref}
variable {copies : List (Ref × Ref)}

/-- Only the source of the copies has given ids. -/
theorem Heap.nextId_of_ne {n : Nat} {other : IdSource}
    (hnext : h'.nextIds = h.nextIds.modify ids.index (· + (n : Int))) (hne : other ≠ ids) :
    h'.nextId other = h.nextId other := by
  have hindex : ids.index ≠ other.index := fun heq => hne (congrArg IdSource.mk heq.symm)
  rw [nextId, nextId, hnext, Array.getElem?_modify, if_neg hindex]

/-- A traversal meets the same ids on a heap that has grown. -/
theorem Heap.Extends.idsBelow_eq (hh : h.Extends h') (hstart : start ∈ h.graph) :
    h'.graph.idsBelow start = h.graph.idsBelow start := by
  have horder := h'.graph.order_shape start
  rw [hh.shape_eq hstart] at horder
  exact horder.unique (h.graph.order_shape start)

/-- What lies below an old state is listed on a heap that has grown as it was before. -/
theorem Heap.Extends.listing_eq (hh : h.Extends h') (hstart : start ∈ h.graph) :
    h'.graph.listing start = h.graph.listing start := by
  rw [Graph.listing_eq, Graph.listing_eq, hh.shape_eq hstart, hh.idsBelow_eq hstart]

namespace Copied

variable (hc : Copied h ∅ ids start root images' h' copies)
include hc

theorem values_eq : images'.values = copies.map (·.2) := by
  rw [IdMap.values, hc.records.entries_eq]
  simp [show (∅ : IdMap).entries = [] from rfl]

/-- The ids of the copies are the next ones of the source. -/
theorem map_id_eq (hids : ids ∈ h) : copies.map (fun p => (h'.graph.state p.2).id) =
    (List.range copies.length).map fun i : Nat => h.nextId ids + (i : Int) := by
  refine hc.records.ids_eq.trans (List.map_congr_left fun i _ => ?_)
  exact Heap.laterId_eq hids i

theorem nextId_eq (hids : ids ∈ h) : h'.nextId ids = h.nextId ids + copies.length :=
  hc.records.nextId_eq.trans (Heap.laterId_eq hids _)

variable (horder : copies.map (·.1) = h.graph.breadthFirst start)
include horder

/-- A traversal of the copy visits the copies in the order in which they were made. -/
theorem breadthFirst_eq (hids : ids ∈ h) : h'.graph.breadthFirst root = copies.map (·.2) := by
  have hbelow := Graph.order_below (hc.distinctIds hids)
  have hshape := (hc.isIso_shape horder).order_map (h.graph.order_shape start)
  rw [hbelow.unique hshape, Graph.idsBelow, ← horder, List.map_map, List.map_map]
  refine List.map_congr_left fun p hp => ?_
  rw [Function.comp, Function.comp, IdMap.imageOfId, hc.find?_of_mem hp, Option.getD_some]

theorem idsBelow_eq (hids : ids ∈ h) : h'.graph.idsBelow root =
    (List.range copies.length).map fun i : Nat => h.nextId ids + (i : Int) := by
  rw [Graph.idsBelow, hc.breadthFirst_eq horder hids, List.map_map]
  exact hc.map_id_eq hids

/-- What is copied is listed as the copy is. -/
theorem listing_eq (hids : ids ∈ h) : h'.graph.listing root = h.graph.listing start := by
  have hiso := (hc.isIso_shape horder).comp (Graph.isIso_shape (hc.distinctIds hids))
  rw [Graph.listing_eq, Graph.listing_eq]
  exact hiso.listing_eq (h.graph.order_shape start) (h'.graph.order_shape root)

end Copied

/-- A copy from a source of the heap is always made, of the states that a traversal visits, one for
each and in its order, with the next ids of the source. No other state and no other id is used.
A traversal of the copy visits the copies in the same order, and the copy has the listing of the
original. -/
theorem HeapM.copyGraph_breadthFirst (hids : ids ∈ h) (hstart : start ∈ h.graph) :
    ∃ root images h', Returns (copyGraph start ∅ (some ids)) h (root, images) h' ∧
      images.keys = h.graph.idsBelow start ∧ images.values = h'.graph.breadthFirst root ∧
      List.Forall₂ (fun r q => h.graph.IsImage images r h'.graph q)
        (h.graph.breadthFirst start) (h'.graph.breadthFirst root) ∧
      h'.graph.breadthFirst root =
        (List.range' h.graph.size (h.graph.breadthFirst start).length).map Ref.mk ∧
      h'.graph.idsBelow root =
        (List.range (h.graph.breadthFirst start).length).map
          (fun i : Nat => h.nextId ids + (i : Int)) ∧
      h'.graph.size = h.graph.size + (h.graph.breadthFirst start).length ∧
      h'.nextId ids = h.nextId ids + (h.graph.breadthFirst start).length ∧
      (∀ other, other ≠ ids → h'.nextId other = h.nextId other) ∧
      (∀ q ∈ h.graph, h'.graph.state q = h.graph.state q) ∧
      h'.graph.listing root = h.graph.listing start ∧
      h'.graph.listing start = h.graph.listing start := by
  obtain ⟨root, images, h', copies, hreturns, hc, horder⟩ :=
    exists_copied_breadthFirst h ids start
  have hlength : copies.length = (h.graph.breadthFirst start).length := by
    rw [← horder, List.length_map]
  have hcopies := hc.breadthFirst_eq horder hids
  rw [← hlength]
  refine ⟨root, images, h', hreturns, hc.keys_eq_idsBelow horder, ?_, ?_, ?_,
    hc.idsBelow_eq horder hids, hc.records.size_eq, hc.nextId_eq hids, ?_, hc.records.kept,
    hc.listing_eq horder hids, hc.grows.listing_eq hstart⟩
  · rw [hc.values_eq, hcopies]
  · rw [hcopies, ← horder, List.forall₂_map_left_iff, List.forall₂_map_right_iff,
      List.forall₂_same]
    exact fun p hp => hc.isImage hp
  · exact hcopies.trans hc.records.refs_eq
  · exact fun other hne => Heap.nextId_of_ne hc.records.nextIds_eq hne

/-- Of the twins the second is taken for the first, here as in a traversal. -/
theorem HeapM.copyGraph_breadthFirst_twins :
    let h : Heap := { graph := .twins, nextIds := #[1] }
    (⟨0⟩ : IdSource) ∈ h ∧ (⟨0⟩ : Ref) ∈ h.graph ∧
      ∃ root images h', Returns (copyGraph ⟨0⟩ ∅ (some ⟨0⟩)) h (root, images) h' ∧
        images.keys = [4, 1] ∧ h'.graph.breadthFirst root = [⟨3⟩, ⟨4⟩] ∧
        h'.graph.idsBelow root = [1, 2] ∧ h'.nextId ⟨0⟩ = 3 ∧
        h'.graph.listing root = h.graph.listing ⟨0⟩ := by
  intro h
  have hids : (⟨0⟩ : IdSource) ∈ h := by decide
  have hstart : (⟨0⟩ : Ref) ∈ h.graph := by decide
  have hvisits : h.graph.Visits [] [⟨0⟩] [⟨0⟩, ⟨1⟩] :=
    .visit (by decide) <| .visit (by decide) <| .skip (by decide) <| .skip (by decide) <| .done _
  have horder := (h.graph.visits_breadthFirst ⟨0⟩).unique hvisits
  obtain ⟨root, images, h', hreturns, hkeys, -, -, hcopies, hnew, -, hnext, -, -, hlisting, -⟩ :=
    HeapM.copyGraph_breadthFirst hids hstart
  rw [Graph.idsBelow, horder] at hkeys
  rw [horder] at hcopies hnew hnext
  exact ⟨hids, hstart, root, images, h', hreturns, hkeys, hcopies, hnew, hnext, hlisting⟩

end EpsilonNfa
