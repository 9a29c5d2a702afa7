import EpsilonNfa.Proofs.CopyOrder
import EpsilonNfa.Proofs.Frame

/-!
# Accounts of ids

What an operation has made and what it has drawn are two sides of one account: so many states have
come, with the next ids of one source in the order in which they were made, and the counter of that
source has gone on by as many (`Heap.Issues`). Accounts of operations that follow each other add up.
-/

namespace EpsilonNfa

/-- The second heap has `n` states more than the first, with the next `n` ids of the source in the
order in which they were made. No other source has given an id, and ids stay what they were. -/
structure Heap.Issues (h : Heap) (ids : IdSource) (n : Nat) (h' : Heap) : Prop where
  size_eq : h'.graph.size = h.graph.size + n
  nextIds_eq : h'.nextIds = h.nextIds.modify ids.index (· + (n : Int))
  id_eq : ∀ {r}, r ∈ h.graph → (h'.graph.state r).id = (h.graph.state r).id
  id_new : ∀ k < n, (h'.graph.state ⟨h.graph.size + k⟩).id = h.nextId ids + (k : Int)

variable {h h' h'' : Heap} {ids src : IdSource} {m n : Nat} {g : Graph} {r t : Ref}

namespace Heap.Issues

theorem refl (h : Heap) (ids : IdSource) : h.Issues ids 0 h where
  size_eq := rfl
  nextIds_eq := h.modify_zero ids
  id_eq _ := rfl
  id_new k hk := absurd hk (Nat.not_lt_zero k)

theorem mem (hh : h.Issues ids n h') (hr : r ∈ h.graph) : r ∈ h'.graph := by
  rw [Graph.mem_iff] at hr ⊢
  have := hh.size_eq
  omega

theorem mem_iff_source (hh : h.Issues ids n h') : src ∈ h' ↔ src ∈ h := by
  show src.index < h'.nextIds.size ↔ src.index < h.nextIds.size
  rw [hh.nextIds_eq, Array.size_modify]

theorem nextId_eq (hh : h.Issues ids n h') (hids : ids ∈ h) :
    h'.nextId ids = h.nextId ids + n := by
  have hlt : ids.index < h.nextIds.size := hids
  simp [Heap.nextId, hh.nextIds_eq, hlt, Array.getElem_modify]

theorem nextId_of_ne (hh : h.Issues ids n h') (hne : src ≠ ids) : h'.nextId src = h.nextId src :=
  Heap.nextId_of_ne hh.nextIds_eq hne

theorem nextId_le (hh : h.Issues ids n h') (hids : ids ∈ h) (src : IdSource) :
    h.nextId src ≤ h'.nextId src := by
  by_cases hsrc : src = ids
  · rw [hsrc, hh.nextId_eq hids]
    omega
  · rw [hh.nextId_of_ne hsrc]

theorem trans (hids : ids ∈ h) (hh : h.Issues ids m h') (hh' : h'.Issues ids n h'') :
    h.Issues ids (m + n) h'' where
  size_eq := by rw [hh'.size_eq, hh.size_eq, Nat.add_assoc]
  nextIds_eq := by
    rw [hh'.nextIds_eq, hh.nextIds_eq, modify_modify]
    congr 1
    funext i
    simp only [Function.comp]
    omega
  id_eq hr := (hh'.id_eq (hh.mem hr)).trans (hh.id_eq hr)
  id_new k hk := by
    by_cases hfirst : k < m
    · rw [hh'.id_eq (by rw [Graph.mem_iff, hh.size_eq]; exact Nat.add_lt_add_left hfirst _),
        hh.id_new k hfirst]
    · -- a state of the second account, whose ids begin where the first has stopped
      have hplace : (⟨h.graph.size + k⟩ : Ref) = ⟨h'.graph.size + (k - m)⟩ :=
        Ref.ext (by simp only [hh.size_eq]; omega)
      rw [hplace, hh'.id_new (k - m) (by omega), hh.nextId_eq hids]
      omega

/-- Edges and finality are no part of the account. -/
theorem setGraph (hh : h.Issues ids n h') (hsize : g.size = h'.graph.size)
    (hid : ∀ r ∈ h'.graph, (g.state r).id = (h'.graph.state r).id) :
    h.Issues ids n { h' with graph := g } where
  size_eq := hsize.trans hh.size_eq
  nextIds_eq := hh.nextIds_eq
  id_eq hr := (hid _ (hh.mem hr)).trans (hh.id_eq hr)
  id_new k hk := by
    refine (hid _ ?_).trans (hh.id_new k hk)
    rw [Graph.mem_iff, hh.size_eq]
    exact Nat.add_lt_add_left hk _

theorem addState (h : Heap) (ids : IdSource) (isFinal : Bool) :
    h.Issues ids 1 (h.addState ids isFinal).2 where
  size_eq := (h.addsState ids isFinal).size_eq
  nextIds_eq := rfl
  id_eq hr := by rw [(h.addsState ids isFinal).state_eq hr]
  id_new k hk := by
    rw [Nat.lt_one_iff.1 hk, Nat.add_zero, (h.addsState ids isFinal).state_new]
    exact (Int.add_zero _).symm

/-- A source that is new when it begins to give ids. -/
theorem nextIds_eq_push {first : Int}
    (hh : (h.addSource first).2.Issues (h.addSource first).1 n h') :
    h'.nextIds = h.nextIds.push (first + n) := by
  refine hh.nextIds_eq.trans (Array.ext_getElem? fun k => ?_)
  rw [Heap.addSource, Array.getElem?_modify, Array.getElem?_push, Array.getElem?_push]
  by_cases hk : k = h.nextIds.size
  · simp [hk]
  · simp [hk, Ne.symm hk]

/-! ### States that are new -/

section New

variable (hh : h.Issues ids n h') (hr : h.New h' r)
include hh hr

theorem exists_of_new :
    ∃ k < n, r = ⟨h.graph.size + k⟩ ∧ (h'.graph.state r).id = h.nextId ids + (k : Int) := by
  obtain ⟨hnot, hmem⟩ := hr
  rw [Graph.mem_iff] at hnot hmem
  rw [hh.size_eq] at hmem
  have hplace : r = ⟨h.graph.size + (r.index - h.graph.size)⟩ := Ref.ext (by simp only; omega)
  refine ⟨r.index - h.graph.size, by omega, hplace, ?_⟩
  rw [← hh.id_new _ (by omega), ← hplace]

theorem nextId_le_id : h.nextId ids ≤ (h'.graph.state r).id := by
  obtain ⟨k, -, -, hid⟩ := hh.exists_of_new hr
  omega

theorem id_lt_nextId (hids : ids ∈ h) : (h'.graph.state r).id < h'.nextId ids := by
  obtain ⟨k, hk, -, hid⟩ := hh.exists_of_new hr
  rw [hh.nextId_eq hids]
  omega

theorem eq_of_id_eq (ht : h.New h' t) (hid : (h'.graph.state r).id = (h'.graph.state t).id) :
    r = t := by
  obtain ⟨k, -, rfl, hk⟩ := hh.exists_of_new hr
  obtain ⟨l, -, rfl, hl⟩ := hh.exists_of_new ht
  have heq : k = l := by omega
  rw [heq]

end New

end Heap.Issues

/-- A copy issues one id for each state that is copied. -/
theorem Copied.issues {images images' : IdMap} {start root : Ref} {copies : List (Ref × Ref)}
    (hc : Copied h images ids start root images' h' copies) (hids : ids ∈ h) :
    h.Issues ids copies.length h' where
  size_eq := hc.records.size_eq
  nextIds_eq := hc.records.nextIds_eq
  id_eq hr := by rw [hc.records.kept _ hr]
  id_new k hk := by
    have hcopy : copies[k].2 = ⟨h.graph.size + k⟩ := by
      have hrefs := congrArg (·[k]?) hc.records.refs_eq
      simpa [hk] using hrefs
    have hids' := congrArg (·[k]?) hc.records.ids_eq
    rw [← hcopy, ← Heap.laterId_eq hids]
    simpa [hk] using hids'

end EpsilonNfa
