import EpsilonNfa.Proofs.Copying
import EpsilonNfa.Proofs.Outcome
import EpsilonNfa.Proofs.Renaming

/-!
# Copies of a graph

What a copy leaves behind, read off the record of its making. A state below the start is copied
when a path leads to it on which no id has an image yet; without images to begin with these are all
states below the start, and the copy is an isomorphic graph (`Copied.isIso`).
-/

namespace EpsilonNfa

/-- The state of `g'` at `q` has the finality and the edges of the state of `g` at `o`, each edge
leading to the image of its target. -/
structure Graph.IsImage (g : Graph) (images : IdMap) (o : Ref) (g' : Graph) (q : Ref) : Prop where
  isFinal_eq : (g'.state q).isFinal = (g.state o).isFinal
  onSymbol : List.Forall₂ (g.IsEdgeImage images) (g.state o).onSymbol.entries
    (g'.state q).onSymbol.entries
  onEpsilon : List.Forall₂ (fun t t' => images.find? (g.state t).id = some t')
    (g.state o).onEpsilon (g'.state q).onEpsilon

/-- The image of a state of `g`, and the state itself if it has none. -/
def IdMap.imageOf (images : IdMap) (g : Graph) (r : Ref) : Ref :=
  (images.find? (g.state r).id).getD r

/-- What copying the graph below `start` leaves behind. -/
structure Copied (h : Heap) (images : IdMap) (ids : IdSource) (start root : Ref) (images' : IdMap)
    (h' : Heap) (copies : List (Ref × Ref)) : Prop where
  root_eq : images'.find? (h.graph.state start).id = some root
  records : Copying.Records h images ids start ⟨h', images', []⟩ copies
  edges : ∀ p ∈ copies, List.Forall₂ (h.graph.IsEdgeImage images') (h.graph.state p.1).edges
    (h'.graph.state p.2).edges

variable {h h' : Heap} {images images' : IdMap} {ids : IdSource} {start root o q t : Ref}
variable {copies : List (Ref × Ref)} {p : Ref × Ref} {i : Int}

namespace Graph

variable {g : Graph} {l l' : List (Symbol × Ref)}

/-- Edges that lead to images lead to what `imageOf` names. -/
theorem eq_map_imageOf (hl : List.Forall₂ (g.IsEdgeImage images) l l') :
    l' = l.map fun e => (e.1, images.imageOf g e.2) := by
  induction hl with
  | nil => rfl
  | cons he _ ih =>
    rw [List.map_cons, ← ih, ← he.1]
    simp [IdMap.imageOf, he.2]

theorem mem_images_of_mem (hl : List.Forall₂ (g.IsEdgeImage images) l l') {e : Symbol × Ref}
    (he : e ∈ l) : (g.state e.2).id ∈ images := by
  induction hl with
  | nil => cases he
  | cons hd _ ih =>
    rcases List.mem_cons.1 he with rfl | he
    · rw [← IdMap.find?_isSome_iff, hd.2]
      rfl
    · exact ih he

/-- The two kinds of edges can be read from one list of them. -/
theorem isImage_of_edges {g' : Graph}
    (hfinal : (g'.state q).isFinal = (g.state o).isFinal)
    (hedges : List.Forall₂ (g.IsEdgeImage images) (g.state o).edges (g'.state q).edges) :
    g.IsImage images o g' q where
  isFinal_eq := hfinal
  onSymbol := by
    rw [State.entries_eq_filter, State.entries_eq_filter]
    exact List.rel_filter (fun e e' he => by simp [he.1]) hedges
  onEpsilon := by
    have hepsilon : List.Forall₂ (g.IsEdgeImage images)
        ((g.state o).onEpsilon.map (Symbol.epsilon, ·))
        ((g'.state q).onEpsilon.map (Symbol.epsilon, ·)) := by
      rw [State.map_epsilon_onEpsilon, State.map_epsilon_onEpsilon]
      exact List.rel_filter (fun e e' he => by simp [he.1]) hedges
    rw [List.forall₂_map_left_iff, List.forall₂_map_right_iff] at hepsilon
    exact hepsilon.imp fun _ _ he => he.2

end Graph

theorem Graph.ReachesOutside.not_mem {g : Graph} (hr : g.ReachesOutside images start t) :
    (g.state t).id ∉ images := by
  cases hr with
  | refl new => exact new
  | step _ _ new => exact new

theorem Graph.ReachesOutside.reaches {g : Graph} (hr : g.ReachesOutside images start t) :
    g.Reaches start t := by
  induction hr with
  | refl => exact .refl
  | step _ edge _ ih => exact ih.step edge

theorem Graph.reachesOutside_empty {g : Graph} :
    g.ReachesOutside ∅ start t ↔ g.Reaches start t := by
  constructor
  · exact fun hr => hr.reaches
  · intro hr
    have hnew : ∀ i, i ∉ (∅ : IdMap) := fun i hi => by simp [← IdMap.mem_keys] at hi
    induction hr with
    | refl => exact .refl (hnew _)
    | step _ edge ih => exact ih.step edge (hnew _)

/-! ## Making the copy -/

/-- A copy that fails leaves the heap alone. -/
theorem run_copyGraph (h : Heap) (ids : IdSource) (start : Ref) (images : IdMap) :
    (HeapM.copyGraph start images (some ids)).run.run h =
      match (Copying.image h.graph ids ⟨h, images, []⟩ start).2.run h.graph ids with
      | .ok c => (.ok ((Copying.image h.graph ids ⟨h, images, []⟩ start).1, c.images), c.heap)
      | .error e => (.error e, h) := by
  unfold HeapM.copyGraph
  simp only [run_bind, run_get, run_pure, run_liftM, Option.getDM_some]
  cases (Copying.image h.graph ids ⟨h, images, []⟩ start).2.run h.graph ids <;> rfl

/-- Without a source a copy is one from a new source. -/
theorem run_copyGraph_none (h : Heap) (start : Ref) (images : IdMap) :
    (HeapM.copyGraph start images none).run.run h =
      (HeapM.copyGraph start images
        (some (h.addSource (firstFreeId h.graph start images)).1)).run.run
          (h.addSource (firstFreeId h.graph start images)).2 := rfl

/-- A copy is always made, of the states that a traversal visits which has seen the ids with images,
and in its order. -/
theorem exists_copied_inOrder (h : Heap) (images : IdMap) (ids : IdSource) (start : Ref)
    (hvalues : ∀ q ∈ images.values, q ∈ h.graph) :
    ∃ root images' h' copies,
      Returns (HeapM.copyGraph start images (some ids)) h (root, images') h' ∧
      Copied h images ids start root images' h' copies ∧
      h.graph.Visits images.keys [start] (copies.map (·.1)) := by
  have hold : (h.graph.state start).id ∉ images → h.graph.ReachesOutside images start start := .refl
  obtain ⟨added, hr, hext, hfind⟩ := (Copying.Records.init h images ids start).image hold
  have hpending := (hext start).pending_eq
  rw [List.nil_append] at hpending
  have hi : Copying.Invariant h images ids start
      (Copying.image h.graph ids ⟨h, images, []⟩ start).2 [] := by
    refine ⟨?_, by simp, ?_⟩
    · rw [hpending]
      exact hr
    · rw [hpending]
      exact fun p hp => ((hext start).fresh p hp).2.2
  have hqueue := (Copying.queued_image h.graph ids ⟨h, images, []⟩ start).pending_eq
  obtain ⟨c, copies, hrun, hdone, hfound, hinv, horder⟩ := hi.run hvalues
  have hrecords := hinv.records
  rw [hdone, List.append_nil] at hrecords
  obtain ⟨order, hvisits, hcopies⟩ :=
    horder [start] (by simpa [Copying.idsBefore] using hqueue.symm)
  rw [List.map_nil, List.nil_append] at hcopies
  refine ⟨_, c.images, c.heap, copies, ?_,
    ⟨hfound hfind, hrecords.setPending [], hinv.finished_edges⟩, ?_⟩
  · unfold Returns
    rw [run_copyGraph, hrun]
  · rw [hcopies]
    simpa [Copying.idsBefore] using hvisits

theorem exists_copied (ids : IdSource) (start : Ref)
    (hvalues : ∀ q ∈ images.values, q ∈ h.graph) :
    ∃ root images' h' copies,
      Returns (HeapM.copyGraph start images (some ids)) h (root, images') h' ∧
      Copied h images ids start root images' h' copies := by
  obtain ⟨root, images', h', copies, hreturns, hc, -⟩ :=
    exists_copied_inOrder h images ids start hvalues
  exact ⟨root, images', h', copies, hreturns, hc⟩

/-- Without a source it is made on the heap with a new one, which has the same graph. -/
theorem exists_copied_of_option (ids : Option IdSource) (start : Ref)
    (hvalues : ∀ q ∈ images.values, q ∈ h.graph) :
    ∃ src h₀, h₀.graph = h.graph ∧ ∃ root images' h' copies,
      Returns (HeapM.copyGraph start images ids) h (root, images') h' ∧
      Copied h₀ images src start root images' h' copies := by
  cases ids with
  | none =>
    obtain ⟨root, images', h', copies, hreturns, hc⟩ :=
      exists_copied (h := (h.addSource (firstFreeId h.graph start images)).2)
        (h.addSource (firstFreeId h.graph start images)).1 start hvalues
    exact ⟨_, (h.addSource (firstFreeId h.graph start images)).2, rfl, root, images', h', copies,
      (run_copyGraph_none h start images).trans hreturns, hc⟩
  | some src => exact ⟨src, h, rfl, exists_copied src start hvalues⟩

/-! ## Reading the copy -/

namespace Copied

theorem mem_entries (hc : Copied h images ids start root images' h' copies) :
    (i, q) ∈ images'.entries ↔
      (i, q) ∈ images.entries ∨ ∃ p ∈ copies, (h.graph.state p.1).id = i ∧ p.2 = q := by
  rw [hc.records.entries_eq, List.mem_append, List.mem_map]
  simp only [Prod.mk.injEq]

theorem find?_of_find? (hc : Copied h images ids start root images' h' copies)
    (hi : images.find? i = some q) : images'.find? i = some q :=
  IdMap.find?_eq_some_iff.2 (hc.mem_entries.2 (Or.inl (IdMap.find?_eq_some_iff.1 hi)))

theorem find?_of_mem (hc : Copied h images ids start root images' h' copies) (hp : p ∈ copies) :
    images'.find? (h.graph.state p.1).id = some p.2 :=
  IdMap.find?_eq_some_iff.2 (hc.mem_entries.2 (Or.inr ⟨p, hp, rfl, rfl⟩))

/-- An id that had no image has one now if it is the id of a state that was copied. -/
theorem exists_of_find? (hc : Copied h images ids start root images' h' copies)
    (hi : images'.find? i = some q) (hnew : i ∉ images) :
    ∃ p ∈ copies, (h.graph.state p.1).id = i ∧ p.2 = q := by
  refine (hc.mem_entries.1 (IdMap.find?_eq_some_iff.1 hi)).resolve_left fun hold => hnew ?_
  exact List.mem_map.2 ⟨_, hold, rfl⟩

theorem mem_images' (hc : Copied h images ids start root images' h' copies) (hp : p ∈ copies)
    (ht : t ∈ (h.graph.state p.1).targets) : (h.graph.state t).id ∈ images' := by
  rw [← State.map_snd_edges, List.mem_map] at ht
  obtain ⟨e, he, rfl⟩ := ht
  exact Graph.mem_images_of_mem (hc.edges p hp) he

theorem find?_imageOf_target (hc : Copied h images ids start root images' h' copies)
    (hp : p ∈ copies) {e : Symbol × Ref} (he : e ∈ (h.graph.state p.1).edges) :
    images'.find? (h.graph.state e.2).id = some (images'.imageOf h.graph e.2) := by
  obtain ⟨q, hq⟩ := Option.isSome_iff_exists.1
    (IdMap.find?_isSome_iff.2 (Graph.mem_images_of_mem (hc.edges p hp) he))
  rw [IdMap.imageOf, hq, Option.getD_some]

/-- Where ids tell the states below the start apart, every state to which a path leads on which no
id had an image is copied. -/
theorem exists_mem_of_reachesOutside (hc : Copied h images ids start root images' h' copies)
    (hd : h.graph.DistinctIds start) (ht : h.graph.ReachesOutside images start t) :
    ∃ q, (t, q) ∈ copies := by
  have hcopied : ∀ {r}, h.graph.ReachesOutside images start r → (h.graph.state r).id ∈ images' →
      ∃ q, (r, q) ∈ copies := by
    intro r hr hmem
    obtain ⟨q, hq⟩ := Option.isSome_iff_exists.1 (IdMap.find?_isSome_iff.2 hmem)
    obtain ⟨p, hp, hid, rfl⟩ := hc.exists_of_find? hq hr.not_mem
    rw [← hd p.1 r (hc.records.below p hp).reaches hr.reaches hid]
    exact ⟨p.2, hp⟩
  induction ht with
  | refl new =>
    refine hcopied (.refl new) (IdMap.find?_isSome_iff.1 ?_)
    rw [hc.root_eq]
    rfl
  | step hr edge new ih =>
    obtain ⟨q, hq⟩ := ih
    exact hcopied (hr.step edge new) (hc.mem_images' hq edge)

theorem isImage (hc : Copied h images ids start root images' h' copies) (hp : p ∈ copies) :
    h.graph.IsImage images' p.1 h'.graph p.2 :=
  Graph.isImage_of_edges (hc.records.isFinal_eq p hp) (hc.edges p hp)

/-- The ids that get an image are those of the states to which a path leads on which no id had
one. -/
theorem mem_and_not_mem_iff (hc : Copied h images ids start root images' h' copies)
    (hd : h.graph.DistinctIds start) : i ∈ images' ∧ i ∉ images ↔
      ∃ t, h.graph.ReachesOutside images start t ∧ (h.graph.state t).id = i := by
  constructor
  · rintro ⟨hi, hnew⟩
    obtain ⟨q, hq⟩ := Option.isSome_iff_exists.1 (IdMap.find?_isSome_iff.2 hi)
    obtain ⟨p, hp, hid, -⟩ := hc.exists_of_find? hq hnew
    exact ⟨p.1, hc.records.below p hp, hid⟩
  · rintro ⟨t, ht, rfl⟩
    obtain ⟨q, hq⟩ := hc.exists_mem_of_reachesOutside hd ht
    refine ⟨IdMap.find?_isSome_iff.1 ?_, ht.not_mem⟩
    rw [hc.find?_of_mem hq]
    rfl

theorem isImage_of_find? (hc : Copied h images ids start root images' h' copies)
    (hd : h.graph.DistinctIds start) (ht : h.graph.ReachesOutside images start t)
    (hq : images'.find? (h.graph.state t).id = some q) : h.graph.IsImage images' t h'.graph q := by
  obtain ⟨p, hp, hid, rfl⟩ := hc.exists_of_find? hq ht.not_mem
  rw [← hd p.1 t (hc.records.below p hp).reaches ht.reaches hid]
  exact hc.isImage hp

/-- Different new ids have different images. -/
theorem eq_of_find? (hc : Copied h images ids start root images' h' copies) {j : Int}
    (hi : images'.find? i = some q) (hj : images'.find? j = some q) (hinew : i ∉ images)
    (hjnew : j ∉ images) : i = j := by
  obtain ⟨p, hp, hid, hpq⟩ := hc.exists_of_find? hi hinew
  obtain ⟨p', hp', hid', hpq'⟩ := hc.exists_of_find? hj hjnew
  have heq : p = p' := List.inj_on_of_nodup_map hc.records.nodup_snd hp hp' (hpq.trans hpq'.symm)
  rw [← hid, ← hid', heq]

section Empty

variable (hc : Copied h ∅ ids start root images' h' copies) (hd : h.graph.DistinctIds start)
include hc hd

theorem mem_copies_imageOf (ht : h.graph.Reaches start t) :
    (t, images'.imageOf h.graph t) ∈ copies := by
  obtain ⟨q, hq⟩ := hc.exists_mem_of_reachesOutside hd (Graph.reachesOutside_empty.2 ht)
  have himage : images'.imageOf h.graph t = q := by
    unfold IdMap.imageOf
    rw [hc.find?_of_mem hq]
    rfl
  rwa [himage]

theorem find?_imageOf (ht : h.graph.Reaches start t) :
    images'.find? (h.graph.state t).id = some (images'.imageOf h.graph t) :=
  hc.find?_of_mem (hc.mem_copies_imageOf hd ht)

theorem imageOf_start : images'.imageOf h.graph start = root :=
  Option.some.inj ((hc.find?_imageOf hd .refl).symm.trans hc.root_eq)

/-- The table of images renames what was copied. -/
theorem renames : h.graph.Renames start (images'.imageOf h.graph) h'.graph where
  isFinal_eq ht := hc.records.isFinal_eq _ (hc.mem_copies_imageOf hd ht)
  edges_eq ht := Graph.eq_map_imageOf (hc.edges _ (hc.mem_copies_imageOf hd ht))

/-- A copy that begins without images is an isomorphic graph. -/
theorem isIso : h.graph.IsIso start (images'.imageOf h.graph) h'.graph root := by
  rw [← hc.imageOf_start hd]
  apply (hc.renames hd).isIso
  intro r t hr ht heq
  have hsnd := List.inj_on_of_nodup_map hc.records.nodup_snd (hc.mem_copies_imageOf hd hr)
    (hc.mem_copies_imageOf hd ht) heq
  exact congrArg Prod.fst hsnd

end Empty

end Copied

/-! ## The contract of a copy -/

/-- A copy of the graph below a state, for any table of images that the caller passes. The copy is
always made, and: the image of the start is returned; images stay what they were; the ids that get
one are those of the states to which a path leads on which no id had one; their images are new
states and all different, with the finality and, in their order, the edges of the states that they
stand for; no state changes that was there before; and without images to begin with the copy is
isomorphic to what lies below the start. -/
theorem HeapM.copyGraph_contract (ids : Option IdSource) (hd : h.graph.DistinctIds start)
    (hvalues : ∀ q ∈ images.values, q ∈ h.graph) :
    ∃ root images' h', Returns (HeapM.copyGraph start images ids) h (root, images') h' ∧
      images'.find? (h.graph.state start).id = some root ∧
      (∀ i q, images.find? i = some q → images'.find? i = some q) ∧
      (∀ i, i ∈ images' ∧ i ∉ images ↔
        ∃ t, h.graph.ReachesOutside images start t ∧ (h.graph.state t).id = i) ∧
      (∀ i j q, i ∉ images → j ∉ images → images'.find? i = some q → images'.find? j = some q →
        i = j) ∧
      (∀ i q, i ∉ images → images'.find? i = some q → q ∉ h.graph ∧ q ∈ h'.graph) ∧
      (∀ t q, h.graph.ReachesOutside images start t →
        images'.find? (h.graph.state t).id = some q → h.graph.IsImage images' t h'.graph q) ∧
      (∀ q ∈ h.graph, h'.graph.state q = h.graph.state q) ∧
      (images = ∅ → ∃ f, h.graph.IsIso start f h'.graph root ∧
        ∀ t, h.graph.Reaches start t → images'.find? (h.graph.state t).id = some (f t)) := by
  obtain ⟨src, h₀, hgraph, root, images', h', copies, hreturns, hc⟩ :=
    exists_copied_of_option ids start hvalues
  rw [← hgraph] at hd ⊢
  refine ⟨root, images', h', hreturns, hc.root_eq, fun i q => hc.find?_of_find?, ?_, ?_, ?_, ?_,
    hc.records.kept, ?_⟩
  · exact fun i => hc.mem_and_not_mem_iff hd
  · exact fun i j q hinew hjnew hi hj => hc.eq_of_find? hi hj hinew hjnew
  · intro i q hnew hi
    obtain ⟨p, hp, -, rfl⟩ := hc.exists_of_find? hi hnew
    exact hc.records.snd_mem hp
  · exact fun t q ht hq => hc.isImage_of_find? hd ht hq
  · rintro rfl
    exact ⟨_, hc.isIso hd, fun t ht => hc.find?_imageOf hd ht⟩

/-- The first two states lead to each other, and from the second on to the third and beyond; the
last one stands apart. -/
def Heap.fork : Heap where
  graph :=
    { states := #[{ id := 0, onSymbol := { entries := [(.text "x", ⟨1⟩)], letters := by decide } },
        { id := 1, isFinal := true, onEpsilon := [⟨0⟩, ⟨2⟩, ⟨2⟩] },
        { id := 2, onSymbol := { entries := [(.int 7, ⟨3⟩)], letters := by decide } },
        { id := 3 }, { id := 9 }]
      closed := by decide }
  nextIds := #[5]

/-- Where the third state has an image already, it keeps it. -/
theorem HeapM.copyGraph_contract_fork :
    Heap.fork.graph.DistinctIds ⟨0⟩ ∧ (∀ q ∈ ((∅ : IdMap).insert 2 ⟨4⟩).values, q ∈ Heap.fork.graph) ∧
      ∃ root images' h',
        Returns (HeapM.copyGraph ⟨0⟩ ((∅ : IdMap).insert 2 ⟨4⟩) (some ⟨0⟩)) Heap.fork
          (root, images') h' ∧
        images'.find? 0 = some root ∧ images'.find? 2 = some ⟨4⟩ ∧ root ∉ Heap.fork.graph := by
  have hd : Heap.fork.graph.DistinctIds ⟨0⟩ := .of_nodup (by decide) (by decide)
  have hvalues : ∀ q ∈ ((∅ : IdMap).insert 2 ⟨4⟩).values, q ∈ Heap.fork.graph := by decide
  obtain ⟨root, images', h', hreturns, hroot, hkept, -, -, hnew, -⟩ :=
    HeapM.copyGraph_contract (h := Heap.fork) (some ⟨0⟩) hd hvalues
  exact ⟨hd, hvalues, root, images', h', hreturns, hroot, hkept 2 ⟨4⟩ rfl,
    (hnew 0 root (by decide) hroot).1⟩

end EpsilonNfa
