import EpsilonNfa.Proofs.CopyGraph
import EpsilonNfa.Proofs.Growing
import EpsilonNfa.Proofs.Joining
import EpsilonNfa.Proofs.Search

/-!
# Copies of automata

A copy draws its ids from one source, so its states have different ids even where the ids of the
original collide with those of other graphs. That is why the search for the new stop finds it:
`Copied.returns_resolve`.
-/

namespace EpsilonNfa

/-- What an automaton refers to is there. -/
structure Automaton.Within (h : Heap) (a : Automaton) : Prop where
  start : a.start ∈ h.graph
  stop : a.stop ∈ h.graph
  ids : a.ids ∈ h
  current : ∀ r ∈ a.current, r ∈ h.graph

instance (h : Heap) (a : Automaton) : Decidable (a.Within h) :=
  decidable_of_iff
    (a.start ∈ h.graph ∧ a.stop ∈ h.graph ∧ a.ids ∈ h ∧ ∀ r ∈ a.current, r ∈ h.graph)
    ⟨fun ⟨start, stop, ids, current⟩ => ⟨start, stop, ids, current⟩,
      fun ha => ⟨ha.start, ha.stop, ha.ids, ha.current⟩⟩

variable {h h' : Heap} {images images' : IdMap} {ids : IdSource} {start root old q t : Ref}
variable {copies : List (Ref × Ref)}

theorem exists_copied_empty (h : Heap) (ids : IdSource) (start : Ref) :
    ∃ root images h' copies,
      Returns (HeapM.copyGraph start ∅ (some ids)) h (root, images) h' ∧
      Copied h ∅ ids start root images h' copies :=
  exists_copied ids start fun _ hq => absurd hq List.not_mem_nil

namespace Copied

theorem mem_graph (hc : Copied h images ids start root images' h' copies) (hq : q ∈ h.graph) :
    q ∈ h'.graph :=
  Nat.lt_of_lt_of_le hq (by rw [hc.records.size_eq]; omega)

theorem grows (hc : Copied h images ids start root images' h' copies) : h.Extends h' where
  mem := hc.mem_graph
  state_eq := hc.records.kept
  source {src} hsrc := by
    show src.index < h'.nextIds.size
    rw [hc.records.nextIds_eq, Array.size_modify]
    exact hsrc

theorem laterId_eq (hc : Copied h images ids start root images' h' copies) (n : Nat) :
    h'.laterId ids n = h.laterId ids (copies.length + n) := by
  unfold Heap.laterId
  rw [hc.records.nextIds_eq]
  simp [Array.getElem?_modify, Function.comp_def, Int.add_assoc]

/-- The states that are made have different ids. -/
theorem nodup_ids (hc : Copied h images ids start root images' h' copies) (hids : ids ∈ h) :
    (copies.map fun p => (h'.graph.state p.2).id).Nodup := by
  rw [hc.records.ids_eq]
  exact List.nodup_range.map (Heap.laterId_injective hids)

theorem exists_id_eq (hc : Copied h images ids start root images' h' copies) {p : Ref × Ref}
    (hp : p ∈ copies) :
    ∃ n < copies.length, (h'.graph.state p.2).id = h.laterId ids n := by
  have hid : (h'.graph.state p.2).id ∈ (List.range copies.length).map (h.laterId ids) := by
    rw [← hc.records.ids_eq]
    exact List.mem_map.2 ⟨p, hp, rfl⟩
  obtain ⟨n, hn, heq⟩ := List.mem_map.1 hid
  exact ⟨n, List.mem_range.1 hn, heq.symm⟩

section Empty

variable (hc : Copied h ∅ ids start root images' h' copies)
include hc

/-- What lies below the copy of the start are copies. -/
theorem exists_of_reaches (hq : h'.graph.Reaches root q) : ∃ p ∈ copies, p.2 = q := by
  have hcopied : ∀ {i q}, images'.find? i = some q → ∃ p ∈ copies, p.2 = q := by
    intro i q hi
    obtain ⟨p, hp, -, hq⟩ := hc.exists_of_find? hi fun hmem => by simp [← IdMap.mem_keys] at hmem
    exact ⟨p, hp, hq⟩
  induction hq with
  | refl => exact hcopied hc.root_eq
  | step _ edge ih =>
    obtain ⟨p, hp, rfl⟩ := ih
    rw [← State.map_snd_edges, Graph.eq_map_imageOf (hc.edges p hp), List.map_map] at edge
    obtain ⟨e, he, rfl⟩ := List.mem_map.1 edge
    exact hcopied (hc.find?_imageOf_target hp he)

theorem not_mem_of_reaches (hq : h'.graph.Reaches root q) : q ∉ h.graph ∧ q ∈ h'.graph := by
  obtain ⟨p, hp, rfl⟩ := hc.exists_of_reaches hq
  exact hc.records.snd_mem hp

theorem root_mem : root ∈ h'.graph :=
  (hc.not_mem_of_reaches .refl).2

theorem distinctIds (hids : ids ∈ h) : h'.graph.DistinctIds root := by
  intro q q' hq hq' heq
  obtain ⟨p, hp, rfl⟩ := hc.exists_of_reaches hq
  obtain ⟨p', hp', rfl⟩ := hc.exists_of_reaches hq'
  exact congrArg Prod.snd (List.inj_on_of_nodup_map (hc.nodup_ids hids) hp hp' heq)

/-- A copy that is made next from the same source repeats none of the ids. -/
theorem id_ne_of_next (hids : ids ∈ h) {h'' : Heap} {images'' : IdMap} {start' root' : Ref}
    {copies' : List (Ref × Ref)} (hc' : Copied h' ∅ ids start' root' images'' h'' copies')
    (hq : h'.graph.Reaches root q) (ht : h''.graph.Reaches root' t) :
    (h''.graph.state q).id ≠ (h''.graph.state t).id := by
  obtain ⟨p, hp, rfl⟩ := hc.exists_of_reaches hq
  obtain ⟨p', hp', rfl⟩ := hc'.exists_of_reaches ht
  obtain ⟨m, hm, hqid⟩ := hc.exists_id_eq hp
  obtain ⟨n, -, htid⟩ := hc'.exists_id_eq hp'
  intro heq
  rw [hc'.records.kept p.2 (hc.not_mem_of_reaches hq).2, hqid, htid, hc.laterId_eq] at heq
  have heq := Heap.laterId_injective hids heq
  omega

/-- Where ids tell the states below the start apart, each of them has its copy there. -/
theorem reaches_imageOf (hd : h.graph.DistinctIds start) (ht : h.graph.Reaches start t) :
    h'.graph.Reaches root (images'.imageOf h.graph t) :=
  (hc.isIso hd).reaches_iff.2 ⟨t, ht, rfl⟩

/-- What has an image below the root is found by the new id of the image, also on a heap that has
grown since. -/
theorem returns_resolve_of_find? (hids : ids ∈ h) {h'' : Heap} (hh : h'.Extends h'')
    (hq : images'.find? (h''.graph.state old).id = some q) (hbelow : h'.graph.Reaches root q) :
    Returns (Automaton.resolve root images' old) h'' q h'' := by
  have hdistinct := (hc.distinctIds hids).of_state_eq hc.root_mem hh.state_eq
  unfold Automaton.resolve
  refine .bind (.get h'') ?_
  simp only [hq]
  exact .lift ((Graph.findById_eq_ok_iff hdistinct).2
    ⟨(hh.reaches_iff hc.root_mem).2 hbelow, rfl⟩) h''

/-- The copy of a state is found where ids tell the states apart. -/
theorem returns_resolve (hd : h.graph.DistinctIds start) (hids : ids ∈ h)
    (hstart : start ∈ h.graph) (ht : h.graph.Reaches start t) :
    Returns (Automaton.resolve root images' t) h' (images'.imageOf h.graph t) h' := by
  refine hc.returns_resolve_of_find? hids (.refl h') ?_ (hc.reaches_imageOf hd ht)
  rw [hc.records.kept t (ht.mem hstart)]
  exact hc.find?_imageOf hd ht

end Empty

end Copied

/-- A copy of an automaton is always made, and refers to the images of what the automaton refers
to. -/
theorem Automaton.exists_copy {a : Automaton} (ha : a.Within h)
    (hd : h.graph.DistinctIds a.start) (hstop : h.graph.Reaches a.start a.stop)
    (hcurrent : ∀ r ∈ a.current, h.graph.Reaches a.start r) :
    ∃ start images h' copies,
      Returns (HeapM.copyGraph a.start ∅ (some a.ids)) h (start, images) h' ∧
      Copied h ∅ a.ids a.start start images h' copies ∧
      Returns a.copy h
        { start
          stop := images.imageOf h.graph a.stop
          ids := a.ids
          current := (a.current.map (images.imageOf h.graph)).eraseDups } h' := by
  obtain ⟨start, images, h', copies, hcopy, hc⟩ := exists_copied_empty h a.ids a.start
  have hresolve : ∀ {t}, h.graph.Reaches a.start t →
      Returns (resolve start images t) h' (images.imageOf h.graph t) h' :=
    fun ht => hc.returns_resolve hd ha.ids ha.start ht
  refine ⟨start, images, h', copies, hcopy, hc, ?_⟩
  unfold copy
  refine .bind hcopy (.bind (hresolve hstop) ?_)
  exact .bind (.mapM fun r hr => hresolve (hcurrent r hr)) (.pure _ h')

end EpsilonNfa
