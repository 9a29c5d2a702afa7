import EpsilonNfa.Proofs.Copying
import EpsilonNfa.Proofs.Renaming

/-!
# Heaps that grow

A heap that has only grown has its old states unchanged, so nothing below them changes either. What
is proved about an automaton stays true while others are made beside it.
-/

namespace EpsilonNfa

/-- A source belongs to the heap when it is one of its sources. -/
instance : Membership IdSource Heap where
  mem h ids := ids.index < h.nextIds.size

instance (ids : IdSource) (h : Heap) : Decidable (ids ∈ h) :=
  inferInstanceAs (Decidable (ids.index < h.nextIds.size))

variable {h h' : Heap} {ids : IdSource} {start t : Ref} {g g' : Graph}

theorem Heap.laterId_eq (hids : ids ∈ h) (n : Nat) : h.laterId ids n = h.nextId ids + n := by
  have hlt : ids.index < h.nextIds.size := hids
  simp [Heap.laterId, Heap.nextId, hlt]

theorem Heap.laterId_injective (hids : ids ∈ h) : Function.Injective (h.laterId ids) := by
  intro m n heq
  rw [Heap.laterId_eq hids, Heap.laterId_eq hids] at heq
  omega

/-! ## Graphs that agree on what they share -/

namespace Graph

theorem reaches_iff_of_state_eq (h : ∀ r ∈ g, g'.state r = g.state r) (hs : start ∈ g) :
    g'.Reaches start t ↔ g.Reaches start t := by
  have hrename : g.Renames start id g' := .of_state_eq fun r hr => h r (hr.mem hs)
  simpa using hrename.reaches_iff (q := t)

theorem DistinctIds.of_state_eq (hd : g.DistinctIds start) (hs : start ∈ g)
    (h : ∀ r ∈ g, g'.state r = g.state r) : g'.DistinctIds start := by
  intro r t hr ht hid
  rw [reaches_iff_of_state_eq h hs] at hr ht
  rw [h r (hr.mem hs), h t (ht.mem hs)] at hid
  exact hd r t hr ht hid

end Graph

/-- What is in the first heap is in the second, with its states unchanged. -/
structure Heap.Extends (h h' : Heap) : Prop where
  mem : ∀ {r}, r ∈ h.graph → r ∈ h'.graph
  state_eq : ∀ r ∈ h.graph, h'.graph.state r = h.graph.state r
  source : ∀ {ids : IdSource}, ids ∈ h → ids ∈ h'

namespace Heap.Extends

theorem refl (h : Heap) : h.Extends h :=
  ⟨id, fun _ _ => rfl, id⟩

theorem trans {h'' : Heap} (hh : h.Extends h') (hh' : h'.Extends h'') : h.Extends h'' where
  mem hr := hh'.mem (hh.mem hr)
  state_eq r hr := (hh'.state_eq r (hh.mem hr)).trans (hh.state_eq r hr)
  source hids := hh'.source (hh.source hids)

/-- A change to states that are not in the first heap. -/
theorem setGraph (hh : h.Extends h') (hmem : ∀ {r}, r ∈ h'.graph → r ∈ g)
    (hstate : ∀ r ∈ h.graph, g.state r = h'.graph.state r) : h.Extends { h' with graph := g } where
  mem hr := hmem (hh.mem hr)
  state_eq r hr := (hstate r hr).trans (hh.state_eq r hr)
  source := hh.source

theorem reaches_iff (hh : h.Extends h') (hs : start ∈ h.graph) :
    h'.graph.Reaches start t ↔ h.graph.Reaches start t :=
  Graph.reaches_iff_of_state_eq hh.state_eq hs

end Heap.Extends

/-! ## New states and new sources -/

namespace Heap

theorem addsState (h : Heap) (ids : IdSource) (isFinal : Bool) :
    h.graph.AddsState (.isolated (h.nextId ids) isFinal) (h.addState ids isFinal).2.graph :=
  h.graph.addsState (h.nextId ids) isFinal

theorem grows_addState (h : Heap) (ids : IdSource) (isFinal : Bool) :
    h.Extends (h.addState ids isFinal).2 where
  mem hr := (h.addsState ids isFinal).mem hr
  state_eq r hr := (h.addsState ids isFinal).state_eq hr
  source {src} hsrc := by
    show src.index < (h.nextIds.modify ids.index (· + 1)).size
    rw [Array.size_modify]
    exact hsrc

theorem grows_addSource (h : Heap) (first : Int) : h.Extends (h.addSource first).2 where
  mem := id
  state_eq _ _ := rfl
  source {src} hsrc := by
    show src.index < (h.nextIds.push first).size
    rw [Array.size_push]
    exact Nat.lt_succ_of_lt hsrc

theorem mem_addSource (h : Heap) (first : Int) : (h.addSource first).1 ∈ (h.addSource first).2 := by
  show h.nextIds.size < (h.nextIds.push first).size
  rw [Array.size_push]
  exact Nat.lt_succ_self _

theorem nextId_addSource (h : Heap) (first : Int) :
    (h.addSource first).2.nextId (h.addSource first).1 = first := by
  simp [addSource, nextId]

theorem nextId_addState (hids : ids ∈ h) (isFinal : Bool) :
    (h.addState ids isFinal).2.nextId ids = h.nextId ids + 1 := by
  have hlt : ids.index < h.nextIds.size := hids
  simp [addState_eq, nextId, hlt, Array.getElem_modify]

theorem state_addState_addState (hids : ids ∈ h) :
    ((h.addState ids false).2.addState ids true).2.graph.state ⟨h.graph.size⟩ =
        .isolated (h.nextId ids) false ∧
      ((h.addState ids false).2.addState ids true).2.graph.state
          ⟨(h.addState ids false).2.graph.size⟩ = .isolated (h.nextId ids + 1) true := by
  have hfirst := h.addsState ids false
  have hsecond := (h.addState ids false).2.addsState ids true
  refine ⟨?_, ?_⟩
  · rw [hsecond.state_eq hfirst.mem_new, hfirst.state_new]
  · rw [hsecond.state_new, nextId_addState hids]

end Heap

end EpsilonNfa
