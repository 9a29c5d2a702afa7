import EpsilonNfa.Proofs.Agreement
import EpsilonNfa.Proofs.Frame
import EpsilonNfa.Proofs.GraphShape
import EpsilonNfa.Proofs.Pulls
import Mathlib.Order.Bounds.Basic

/-!
# Ids of copies without a source

A copy without a source gives ids above the greatest that it can see: below its start, among the ids
with an image, and among the images (`isGreatest_firstFreeId`). The images are seen so that copies
which share a table never collide, whatever is made of the earlier ones in the meantime: along a
series of copies the ids of the images increase in the order in which these were made
(`DefaultCopies.ascending`).
-/

namespace EpsilonNfa

variable {g g' : Graph} {h h' : Heap} {images images' : IdMap} {start root r s t q : Ref}
variable {first : Int} {n : Nat} {x : Symbol} {S : Set Ref}

/-- A copy without a source takes the id for used: it is met below the start, has an image or
belongs to one. -/
def Graph.IsUsed (g : Graph) (start : Ref) (images : IdMap) (i : Int) : Prop :=
  (∃ r, g.Reaches start r ∧ (g.state r).id = i) ∨ i ∈ images ∨
    ∃ q ∈ images.values, (g.state q).id = i

/-- One below the first free id is the greatest id in sight. -/
theorem isGreatest_firstFreeId_sub_one (g : Graph) (start : Ref) (images : IdMap) :
    IsGreatest {i | i ∈ g.idsBelow start ∨ i ∈ images ∨ ∃ q ∈ images.values, (g.state q).id = i}
      (firstFreeId g start images - 1) := by
  obtain ⟨used, hused⟩ : ∃ used, used =
    g.idsBelow start ++ images.keys ++ images.values.map fun r => (g.state r).id := ⟨_, rfl⟩
  have hmem : ∀ {i}, i ∈ used ↔
      i ∈ g.idsBelow start ∨ i ∈ images ∨ ∃ q ∈ images.values, (g.state q).id = i := by
    intro i
    rw [hused, List.mem_append, List.mem_append, List.mem_map, or_assoc]
    rfl
  have hstart : (g.state start).id ∈ used := by
    obtain ⟨rest, hrest⟩ := g.idsBelow_eq_cons start
    exact hmem.2 (Or.inl (hrest ▸ List.mem_cons_self))
  obtain ⟨m, hm⟩ := Option.isSome_iff_exists.1 (List.isSome_max?_of_mem hstart)
  have hfirst : firstFreeId g start images - 1 = m := by
    have hfree : firstFreeId g start images = used.max?.getD 0 + 1 := by
      rw [hused]
      rfl
    rw [hfree, hm, Option.getD_some, Int.add_sub_cancel]
  obtain ⟨hgreatest, hle⟩ := List.max?_eq_some_iff.1 hm
  rw [hfirst]
  exact ⟨hmem.1 hgreatest, fun i hi => hle i (hmem.2 hi)⟩

theorem isGreatest_firstFreeId (hd : g.DistinctIds start) :
    IsGreatest {i | g.IsUsed start images i} (firstFreeId g start images - 1) := by
  have hbelow : ∀ i, i ∈ g.idsBelow start ↔ ∃ r, g.Reaches start r ∧ (g.state r).id = i := by
    intro i
    simp only [Graph.mem_idsBelow, Graph.mem_breadthFirst hd]
  have hgreatest := isGreatest_firstFreeId_sub_one g start images
  simp only [hbelow] at hgreatest
  exact hgreatest

theorem lt_firstFreeId (g : Graph) (start : Ref) (hq : q ∈ images.values) :
    (g.state q).id < firstFreeId g start images :=
  Int.lt_of_le_sub_one <|
    (isGreatest_firstFreeId_sub_one g start images).2 (Or.inr (Or.inr ⟨q, hq, rfl⟩))

/-! ## One copy -/

/-- A copy has made `n` states, with ids from `first` on in the order of their entries, and changed
nothing else. -/
structure Heap.MadeFrom (h : Heap) (images : IdMap) (first : Int) (n : Nat) (images' : IdMap)
    (h' : Heap) : Prop where
  size_eq : h'.graph.size = h.graph.size + n
  values_eq : images'.values = images.values ++ (List.range n).map fun k => ⟨h.graph.size + k⟩
  id_eq : ∀ k < n, (h'.graph.state ⟨h.graph.size + k⟩).id = first + k
  kept : ∀ q ∈ h.graph, h'.graph.state q = h.graph.state q

theorem Copied.madeFrom {ids : IdSource} {copies : List (Ref × Ref)}
    (hc : Copied h images ids start root images' h' copies) (hids : ids ∈ h) :
    h.MadeFrom images (h.nextId ids) copies.length images' h' where
  size_eq := hc.records.size_eq
  values_eq := by
    rw [IdMap.values, hc.records.entries_eq, List.map_append, List.map_map]
    show _ ++ copies.map (·.2) = _
    rw [hc.records.refs_eq, List.range'_eq_map_range, List.map_map]
    rfl
  id_eq := by
    have hmap : (copies.map (·.2)).map (fun q => (h'.graph.state q).id) = _ :=
      (List.map_map ..).trans hc.records.ids_eq
    rw [hc.records.refs_eq, List.range'_eq_map_range, List.map_map, List.map_map,
      List.map_inj_left] at hmap
    exact fun k hk => (hmap k (List.mem_range.2 hk)).trans (Heap.laterId_eq hids k)
  kept := hc.records.kept

namespace Heap.MadeFrom

variable (hm : h.MadeFrom images first n images' h')
include hm

theorem exists_of_new (hq : h.New h' q) : ∃ k < n, q = ⟨h.graph.size + k⟩ := by
  obtain ⟨i⟩ := q
  have hold : ¬ i < h.graph.size := hq.1
  have hlt : i < h.graph.size + n := hm.size_eq ▸ hq.2
  exact ⟨i - h.graph.size, by omega, congrArg Ref.mk (by omega)⟩

theorem mem (hq : q ∈ h.graph) : q ∈ h'.graph :=
  Nat.lt_of_lt_of_le hq (by rw [hm.size_eq]; omega)

theorem mem_new {k : Nat} (hk : k < n) : (⟨h.graph.size + k⟩ : Ref) ∈ h'.graph := by
  rw [Graph.mem_iff, hm.size_eq]
  exact Nat.add_lt_add_left hk _

theorem mem_values' (hvalues : ∀ q ∈ images.values, q ∈ h.graph) :
    ∀ q ∈ images'.values, q ∈ h'.graph := by
  intro q hq
  rw [hm.values_eq, List.mem_append, List.mem_map] at hq
  obtain hq | ⟨k, hk, rfl⟩ := hq
  · exact hm.mem (hvalues q hq)
  · exact hm.mem_new (List.mem_range.1 hk)

/-- New ids differ from each other. -/
theorem eq_of_new (hr : h.New h' r) (ht : h.New h' t)
    (hid : (h'.graph.state r).id = (h'.graph.state t).id) : r = t := by
  obtain ⟨k, hk, rfl⟩ := hm.exists_of_new hr
  obtain ⟨j, hj, rfl⟩ := hm.exists_of_new ht
  rw [hm.id_eq k hk, hm.id_eq j hj] at hid
  rw [show k = j by omega]

/-- They are larger than all that were below the first. -/
theorem lt_of_new (hr : r ∈ h.graph) (hlt : (h.graph.state r).id < first) (ht : h.New h' t) :
    (h'.graph.state r).id < (h'.graph.state t).id := by
  obtain ⟨k, hk, rfl⟩ := hm.exists_of_new ht
  rw [hm.kept r hr, hm.id_eq k hk]
  omega

/-- If the ids of the images increase and are below the first, they increase afterwards. -/
theorem ascending (hvalues : ∀ q ∈ images.values, q ∈ h.graph)
    (hlt : ∀ q ∈ images.values, (h.graph.state q).id < first)
    (hpairwise : images.values.Pairwise fun q r => (h.graph.state q).id < (h.graph.state r).id) :
    images'.values.Pairwise fun q r => (h'.graph.state q).id < (h'.graph.state r).id := by
  rw [hm.values_eq, List.pairwise_append]
  refine ⟨hpairwise.imp_of_mem fun hq hr hlt => ?_, ?_, fun q hq r hr => ?_⟩
  · rwa [hm.kept _ (hvalues _ hq), hm.kept _ (hvalues _ hr)]
  · refine List.pairwise_map.2 (List.pairwise_lt_range.imp_of_mem fun hj hk hlt => ?_)
    rw [hm.id_eq _ (List.mem_range.1 hj), hm.id_eq _ (List.mem_range.1 hk)]
    omega
  · obtain ⟨k, hk, rfl⟩ := List.mem_map.1 hr
    have hk := List.mem_range.1 hk
    refine hm.lt_of_new (hvalues q hq) (hlt q hq) ⟨?_, hm.mem_new hk⟩
    exact Nat.not_lt.2 (Nat.le_add_right _ _)

end Heap.MadeFrom

/-! ## Originals and copies together -/

namespace Graph

/-- The second graph is the first with edges added between the given states. -/
inductive Linked (S : Set Ref) (g : Graph) : Graph → Prop
  | refl : Linked S g g
  | connect {g' g'' : Graph} {s t : Ref} {x : Symbol} (hlinked : Linked S g g') (hs : s ∈ S)
      (ht : t ∈ S) (hconnect : g'.connect s x t = .ok g'') : Linked S g g''

theorem Confines.connect (hconfines : g.Confines S) (ht : t ∈ S)
    (hconnect : g.connect s x t = .ok g') : g'.Confines S := by
  intro r hr q hq
  rcases mem_or_eq_of_mem_targets_connect hconnect hq with hq | rfl
  · exact hconfines r hr q hq
  · exact ht

namespace Linked

variable (hl : g.Linked S g')
include hl

theorem grows : g.Grows g' := by
  induction hl with
  | refl => exact .refl g
  | connect _ _ _ hconnect ih => exact ih.trans (.of_connect hconnect)

theorem confines (hconfines : g.Confines S) : g'.Confines S := by
  induction hl with
  | refl => exact hconfines
  | connect _ _ ht hconnect ih => exact ih.connect ht hconnect

theorem injOn_id (hmem : ∀ r ∈ S, r ∈ g) (hinj : S.InjOn fun r => (g.state r).id) :
    S.InjOn fun r => (g'.state r).id := by
  intro r hr t ht hid
  have hid : (g'.state r).id = (g'.state t).id := hid
  rw [hl.grows.id_eq (hmem r hr), hl.grows.id_eq (hmem t ht)] at hid
  exact hinj hr ht hid

/-- Where ids tell the states of a set apart that edges do not lead out of, they do so below each of
them, whatever edges are added between these states. -/
theorem distinctIds (hconfines : g.Confines S) (hmem : ∀ r ∈ S, r ∈ g)
    (hinj : S.InjOn fun r => (g.state r).id) (hs : s ∈ S) : g'.DistinctIds s := by
  have hconfines' := hl.confines hconfines
  exact fun r t hr ht hid => hl.injOn_id hmem hinj (hconfines'.mem_of_reaches hs hr)
    (hconfines'.mem_of_reaches hs ht) hid

end Linked

end Graph

/-- The states below the start of a copy and those that it has made. -/
def Heap.withCopies (h : Heap) (start : Ref) (h' : Heap) : Set Ref :=
  {r | h.graph.Reaches start r ∨ h.New h' r}

/-- A copy without images to begin with leads to no other states than those it has made. -/
theorem Copied.new_of_mem_targets {ids : IdSource} {copies : List (Ref × Ref)}
    (hc : Copied h ∅ ids start root images' h' copies) (hr : h.New h' r)
    (ht : t ∈ (h'.graph.state r).targets) : h.New h' t := by
  have hcopy : r ∈ copies.map (·.2) := by
    obtain ⟨i⟩ := r
    have hlt : i < h.graph.size + copies.length := hc.records.size_eq ▸ hr.2
    rw [hc.records.refs_eq]
    exact List.mem_map_of_mem (List.mem_range'_1.2 ⟨Nat.not_lt.1 hr.1, hlt⟩)
  obtain ⟨p, hp, rfl⟩ := List.mem_map.1 hcopy
  rw [← State.map_snd_edges, Graph.eq_map_imageOf (hc.edges p hp), List.map_map] at ht
  obtain ⟨e, he, rfl⟩ := List.mem_map.1 ht
  obtain ⟨p', hp', -, himage⟩ := hc.exists_of_find? (hc.find?_imageOf_target hp he)
    fun hmem => by simp [← IdMap.mem_keys] at hmem
  show h.New h' (images'.imageOf h.graph e.2)
  rw [← himage]
  exact hc.records.snd_mem hp'

namespace Heap.MadeFrom

variable (hm : h.MadeFrom images first n images' h')
include hm

theorem mem_of_withCopies (hstart : start ∈ h.graph) (hr : r ∈ h.withCopies start h') :
    r ∈ h'.graph :=
  hr.elim (fun hr => hm.mem (hr.mem hstart)) (·.2)

theorem confines_withCopies (hstart : start ∈ h.graph)
    (hnew : ∀ r t, h.New h' r → t ∈ (h'.graph.state r).targets → h.New h' t) :
    h'.graph.Confines (h.withCopies start h') := by
  rintro r (hr | hr) t ht
  · rw [hm.kept r (hr.mem hstart)] at ht
    exact Or.inl (hr.step ht)
  · exact Or.inr (hnew r t hr ht)

theorem injOn_id (hstart : start ∈ h.graph) (hd : h.graph.DistinctIds start)
    (hlt : ∀ r, h.graph.Reaches start r → (h.graph.state r).id < first) :
    (h.withCopies start h').InjOn fun r => (h'.graph.state r).id := by
  rintro r (hr | hr) t (ht | ht) hid
  · have hid : (h'.graph.state r).id = (h'.graph.state t).id := hid
    rw [hm.kept r (hr.mem hstart), hm.kept t (ht.mem hstart)] at hid
    exact hd r t hr ht hid
  · exact absurd hid (hm.lt_of_new (hr.mem hstart) (hlt r hr) ht).ne
  · exact absurd hid (hm.lt_of_new (ht.mem hstart) (hlt t ht) hr).ne'
  · exact hm.eq_of_new hr ht hid

end Heap.MadeFrom

/-- A copy without a source is always made, with ids from the first free one on. Without images to
begin with it leads to no other states than new ones. -/
theorem HeapM.exists_madeFrom (start : Ref) (hvalues : ∀ q ∈ images.values, q ∈ h.graph) :
    ∃ root images' h' n, Returns (copyGraph start images none) h (root, images') h' ∧
      h.MadeFrom images (firstFreeId h.graph start images) n images' h' ∧
      (images = ∅ → ∀ r t, h.New h' r → t ∈ (h'.graph.state r).targets → h.New h' t) := by
  obtain ⟨root, images', h', copies, hreturns, hc⟩ := exists_copied
    (h := (h.addSource (firstFreeId h.graph start images)).2)
    (h.addSource (firstFreeId h.graph start images)).1 start hvalues
  have hm := hc.madeFrom (Heap.mem_addSource h _)
  rw [Heap.nextId_addSource] at hm
  refine ⟨root, images', h', copies.length, (run_copyGraph_none h start images).trans hreturns,
    ⟨hm.size_eq, hm.values_eq, hm.id_eq, hm.kept⟩, ?_⟩
  rintro rfl r t hr ht
  exact hc.new_of_mem_targets hr ht

/-! ## Series of copies -/

/-- Copies without a source that share a table, which is empty at first. Between two of them states
and edges may be added and finality may change anywhere in the graph. -/
inductive DefaultCopies : IdMap → Heap → Prop
  | init (h : Heap) : DefaultCopies ∅ h
  | grow {images : IdMap} {h h' : Heap} (hcalls : DefaultCopies images h)
      (hgrows : h.graph.Grows h'.graph) : DefaultCopies images h'
  | call {images images' : IdMap} {h h' : Heap} {start root : Ref}
      (hcalls : DefaultCopies images h)
      (hcopy : Returns (HeapM.copyGraph start images none) h (root, images') h') :
      DefaultCopies images' h'

namespace DefaultCopies

theorem mem_values (hcalls : DefaultCopies images h) : ∀ q ∈ images.values, q ∈ h.graph := by
  induction hcalls with
  | init => exact fun _ hq => absurd hq List.not_mem_nil
  | grow _ hgrows ih => exact fun q hq => hgrows.mem (ih q hq)
  | @call _ _ _ _ start _ _ hcopy ih =>
    obtain ⟨_, _, _, _, hcopy', hm, -⟩ := HeapM.exists_madeFrom start ih
    obtain ⟨heq, rfl⟩ := hcopy.unique hcopy'
    cases heq
    exact hm.mem_values' ih

/-- The ids of the images increase in the order in which these were made. -/
theorem ascending (hcalls : DefaultCopies images h) :
    images.values.Pairwise fun q r => (h.graph.state q).id < (h.graph.state r).id := by
  induction hcalls with
  | init => exact .nil
  | grow hcalls hgrows ih =>
    refine ih.imp_of_mem fun hq hr hlt => ?_
    rwa [hgrows.id_eq (hcalls.mem_values _ hq), hgrows.id_eq (hcalls.mem_values _ hr)]
  | @call _ _ h _ start _ hcalls hcopy ih =>
    obtain ⟨_, _, _, _, hcopy', hm, -⟩ := HeapM.exists_madeFrom start hcalls.mem_values
    obtain ⟨heq, rfl⟩ := hcopy.unique hcopy'
    cases heq
    exact hm.ascending hcalls.mem_values (fun q hq => lt_firstFreeId h.graph start hq) ih

end DefaultCopies

/-- A copy without a source, for any table of images, where ids tell apart what lies below its
start. It is always made, and gives the states that it makes the ids that follow the greatest of
those below its start, those with an image and those of the images. Without images to begin with
ids then tell originals and copies apart below all of them, and go on doing so whatever edges are
added between them. Along a series of such copies with one table, on any starts and with any
additions to the graph in between, the ids of all images are different: those of a later copy are
larger than those of all copies before it. -/
theorem HeapM.copyGraph_defaultIds (hstart : start ∈ h.graph) (hd : h.graph.DistinctIds start)
    (hvalues : ∀ q ∈ images.values, q ∈ h.graph) :
    (∃ root images' h' m n, Returns (copyGraph start images none) h (root, images') h' ∧
      IsGreatest {i | h.graph.IsUsed start images i} m ∧
      h.MadeFrom images (m + 1) n images' h' ∧
      (images = ∅ → ∀ g', h'.graph.Linked (h.withCopies start h') g' →
        ((h.withCopies start h').InjOn fun r => (g'.state r).id) ∧
        ∀ r ∈ h.withCopies start h', g'.DistinctIds r)) ∧
    ∀ images h, DefaultCopies images h →
      (∀ q ∈ images.values, q ∈ h.graph) ∧
      (images.values.map fun q => (h.graph.state q).id).Nodup ∧
      (images.values.Pairwise fun q r => (h.graph.state q).id < (h.graph.state r).id) ∧
      ∀ start, ∃ root images' h' added,
        Returns (copyGraph start images none) h (root, images') h' ∧
        images'.values = images.values ++ added ∧
        ∀ q ∈ images.values, ∀ r ∈ added, (h'.graph.state q).id < (h'.graph.state r).id := by
  refine ⟨?_, fun images h hcalls => ⟨hcalls.mem_values, ?_, hcalls.ascending, fun start => ?_⟩⟩
  · obtain ⟨root, images', h', n, hreturns, hm, hnew⟩ := exists_madeFrom start hvalues
    have hgreatest : IsGreatest {i | h.graph.IsUsed start images i}
        (firstFreeId h.graph start images - 1) := isGreatest_firstFreeId hd
    refine ⟨root, images', h', firstFreeId h.graph start images - 1, n, hreturns, hgreatest, ?_,
      fun hempty g' hl => ?_⟩
    · rwa [Int.sub_add_cancel]
    · have hlt : ∀ r, h.graph.Reaches start r →
          (h.graph.state r).id < firstFreeId h.graph start images := fun r hr =>
        Int.lt_of_le_sub_one (hgreatest.2 (Or.inl ⟨r, hr, rfl⟩))
      have hmem : ∀ r ∈ h.withCopies start h', r ∈ h'.graph := fun r hr =>
        hm.mem_of_withCopies hstart hr
      have hinj := hm.injOn_id hstart hd hlt
      have hconfines := hm.confines_withCopies hstart (hnew hempty)
      exact ⟨hl.injOn_id hmem hinj, fun r hr => hl.distinctIds hconfines hmem hinj hr⟩
  · exact List.pairwise_map.2 (hcalls.ascending.imp fun hlt => hlt.ne)
  · obtain ⟨root, images', h', n, hcopy, hm, -⟩ := exists_madeFrom start hcalls.mem_values
    have hascending := (hcalls.call hcopy).ascending
    rw [hm.values_eq, List.pairwise_append] at hascending
    exact ⟨root, images', h', _, hcopy, hm.values_eq, hascending.2.2⟩

/-- The image of the third state has the greatest id, so new ids begin above it. And a copy of the
fork that is copied again with the same table has other ids than its copy. -/
theorem HeapM.copyGraph_defaultIds_fork :
    let images := (∅ : IdMap).insert 2 ⟨4⟩
    (⟨0⟩ : Ref) ∈ Heap.fork.graph ∧ Heap.fork.graph.DistinctIds ⟨0⟩ ∧
      (∀ q ∈ images.values, q ∈ Heap.fork.graph) ∧
      (∃ root images' h' n, Returns (copyGraph ⟨0⟩ images none) Heap.fork (root, images') h' ∧
        Heap.fork.MadeFrom images 10 n images' h') ∧
      ∃ root images' h' root' images'' h'',
        Returns (copyGraph ⟨0⟩ ∅ none) Heap.fork (root, images') h' ∧
        Returns (copyGraph root images' none) h' (root', images'') h'' ∧
        (images''.values.map fun q => (h''.graph.state q).id).Nodup := by
  intro images
  have hstart : (⟨0⟩ : Ref) ∈ Heap.fork.graph := by decide
  have hd : Heap.fork.graph.DistinctIds ⟨0⟩ := .of_nodup (by decide) (by decide)
  have hvalues : ∀ q ∈ images.values, q ∈ Heap.fork.graph := by decide
  obtain ⟨⟨root, images', h', m, n, hreturns, hgreatest, hm, -⟩, hseries⟩ :=
    HeapM.copyGraph_defaultIds hstart hd hvalues
  have hnine : m = 9 := by
    refine hgreatest.unique ⟨Or.inr (Or.inr ⟨⟨4⟩, by decide, by decide⟩), ?_⟩
    have hids : ∀ r ∈ Heap.fork.graph.refs, (Heap.fork.graph.state r).id ≤ 9 := by decide
    have hkeys : ∀ i ∈ images.keys, i ≤ 9 := by decide
    rintro i (⟨r, hr, rfl⟩ | hi | ⟨q, hq, rfl⟩)
    · exact hids r (Graph.mem_refs.2 (hr.mem hstart))
    · exact hkeys i hi
    · exact hids q (Graph.mem_refs.2 (hvalues q hq))
  subst hnine
  have hinit := DefaultCopies.init Heap.fork
  obtain ⟨root₁, images₁, h₁, -, hcopy₁, -⟩ := (hseries _ _ hinit).2.2.2 ⟨0⟩
  have hcall := hinit.call hcopy₁
  obtain ⟨root₂, images₂, h₂, -, hcopy₂, -⟩ := (hseries _ _ hcall).2.2.2 root₁
  exact ⟨hstart, hd, hvalues, ⟨root, images', h', n, hreturns, hm⟩, root₁, images₁, h₁, root₂,
    images₂, h₂, hcopy₁, hcopy₂, (hseries _ _ (hcall.call hcopy₂)).2.1⟩

end EpsilonNfa
