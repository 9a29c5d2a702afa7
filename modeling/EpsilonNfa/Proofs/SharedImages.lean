import EpsilonNfa.Proofs.Combinators
import EpsilonNfa.Proofs.EpsilonClosure
import Mathlib.Data.List.Induction
import Mathlib.Data.Set.Function

/-!
# Copies that share a table

Graphs with common parts are copied one after another with one table of images. Each copy begins at
a frontier that the others have left: what has an image is not copied again, and gets no new edges.
That loses nothing because the table is closed under edges after every call (`SharedImages`): its
ids are those of the states below the starts so far, and every image has all its edges. None of this
mentions the order of the calls, so two runs over the same roots differ by a renaming of images
(`HeapM.copyGraph_shared`).
-/

namespace EpsilonNfa

variable {g g' : Graph} {h h' h'' : Heap} {images images' : IdMap} {ids : IdSource}
variable {roots roots' : List Ref} {start root r s t q : Ref} {copies calls : List (Ref × Ref)}
variable {i j : Int}

/-! ## Below several roots -/

namespace Graph

/-- The state lies below one of the roots. -/
def BelowAny (g : Graph) (roots : List Ref) (t : Ref) : Prop :=
  ∃ s ∈ roots, g.Reaches s t

/-- No two states below the roots have one id. -/
def DistinctIdsBelow (g : Graph) (roots : List Ref) : Prop :=
  ∀ r t, g.BelowAny roots r → g.BelowAny roots t → (g.state r).id = (g.state t).id → r = t

theorem BelowAny.step (hr : g.BelowAny roots r) (edge : t ∈ (g.state r).targets) :
    g.BelowAny roots t := by
  obtain ⟨s, hs, hreaches⟩ := hr
  exact ⟨s, hs, hreaches.step edge⟩

theorem BelowAny.mono (hr : g.BelowAny roots r) (hsub : roots ⊆ roots') : g.BelowAny roots' r := by
  obtain ⟨s, hs, hreaches⟩ := hr
  exact ⟨s, hsub hs, hreaches⟩

theorem BelowAny.mem (hr : g.BelowAny roots r) (hroots : ∀ s ∈ roots, s ∈ g) : r ∈ g := by
  obtain ⟨s, hs, hreaches⟩ := hr
  exact hreaches.mem (hroots s hs)

theorem belowAny_concat : g.BelowAny (roots ++ [s]) t ↔ g.BelowAny roots t ∨ g.Reaches s t := by
  simp [BelowAny, or_and_right, exists_or]

theorem DistinctIdsBelow.mono (hd : g.DistinctIdsBelow roots') (hsub : roots ⊆ roots') :
    g.DistinctIdsBelow roots :=
  fun r t hr ht hid => hd r t (hr.mono hsub) (ht.mono hsub) hid

/-- Where no two states of a graph have one id, none below its states have. -/
theorem DistinctIdsBelow.of_nodup (hroots : ∀ s ∈ roots, s ∈ g)
    (hids : (g.refs.map fun r => (g.state r).id).Nodup) : g.DistinctIdsBelow roots :=
  fun _ _ hr ht hid =>
    List.inj_on_of_nodup_map hids (mem_refs.2 (hr.mem hroots)) (mem_refs.2 (ht.mem hroots)) hid

/-- Images of edges remain images when the table gets more entries, whatever graph the ids of the
targets are read in. -/
theorem forall₂_isEdgeImage_mono {l l' : List (Symbol × Ref)}
    (hl : List.Forall₂ (g.IsEdgeImage images) l l')
    (hid : ∀ e ∈ l, (g'.state e.2).id = (g.state e.2).id)
    (hfind : ∀ {i q}, images.find? i = some q → images'.find? i = some q) :
    List.Forall₂ (g'.IsEdgeImage images') l l' := by
  induction hl with
  | nil => exact .nil
  | @cons e _ _ _ he _ ih =>
    refine .cons ⟨he.1, ?_⟩ (ih fun d hd => hid d (List.mem_cons_of_mem _ hd))
    rw [hid e List.mem_cons_self]
    exact hfind he.2

/-- Two tables give images of the same edges that differ as the tables do. -/
theorem eq_map_of_forall₂_isEdgeImage {f : Ref → Ref} {l l₁ l₂ : List (Symbol × Ref)}
    (hfind : ∀ {i q}, images.find? i = some q → images'.find? i = some (f q))
    (hl₁ : List.Forall₂ (g.IsEdgeImage images) l l₁)
    (hl₂ : List.Forall₂ (g.IsEdgeImage images') l l₂) : l₂ = l₁.map fun e => (e.1, f e.2) := by
  induction hl₁ generalizing l₂ with
  | nil =>
    cases hl₂
    rfl
  | cons he₁ _ ih =>
    obtain - | ⟨he₂, hrest⟩ := hl₂
    rw [List.map_cons, ← ih hrest]
    refine congrArg (· :: _) (Prod.ext (he₂.1.trans he₁.1.symm) ?_)
    exact Option.some.inj (he₂.2.symm.trans (hfind he₁.2))

end Graph

/-! ## Runs of calls -/

/-- Copies that are made from the heap `h` on with one table, which is empty at first: their starts
with the states that they returned. Between two calls the heap may grow. -/
inductive SharedCopies (h : Heap) : List (Ref × Ref) → IdMap → Heap → Prop
  | init : SharedCopies h [] ∅ h
  | grow {calls : List (Ref × Ref)} {images : IdMap} {h' h'' : Heap}
      (hcalls : SharedCopies h calls images h') (hh : h'.Extends h'') :
      SharedCopies h calls images h''
  | call {calls : List (Ref × Ref)} {images images' : IdMap} {h' h'' : Heap} {start root : Ref}
      {ids : IdSource} (hcalls : SharedCopies h calls images h')
      (hcopy : Returns (HeapM.copyGraph start images (some ids)) h' (root, images') h'') :
      SharedCopies h (calls ++ [(start, root)]) images' h''

/-- What calls with one table leave behind: images, all different, of the ids below the starts, with
the finality and the edges of what they stand for. Each call has returned the image of its start. -/
structure SharedImages (h : Heap) (calls : List (Ref × Ref)) (images : IdMap) (h' : Heap) :
    Prop where
  grows : h.Extends h'
  mem_iff : ∀ {i}, i ∈ images ↔
    ∃ t, h.graph.BelowAny (calls.map (·.1)) t ∧ (h.graph.state t).id = i
  injective : ∀ {i j q}, images.find? i = some q → images.find? j = some q → i = j
  mem : ∀ {i q}, images.find? i = some q → q ∈ h'.graph
  isFinal_eq : ∀ {t q}, h.graph.BelowAny (calls.map (·.1)) t →
    images.find? (h.graph.state t).id = some q →
    (h'.graph.state q).isFinal = (h.graph.state t).isFinal
  edges : ∀ {t q}, h.graph.BelowAny (calls.map (·.1)) t →
    images.find? (h.graph.state t).id = some q →
    List.Forall₂ (h.graph.IsEdgeImage images) (h.graph.state t).edges (h'.graph.state q).edges
  returned : ∀ c ∈ calls, images.find? (h.graph.state c.1).id = some c.2

namespace Copied

variable (hc : Copied h images ids start root images' h' copies)
include hc

/-- What has an image keeps it. -/
theorem find?_eq_of_mem (hi : i ∈ images) : images'.find? i = images.find? i := by
  obtain ⟨q, hq⟩ := IdMap.mem_iff_exists_find?.1 hi
  rw [hq, hc.find?_of_find? hq]

theorem mem_of_mem (hi : i ∈ images) : i ∈ images' := by
  rw [← IdMap.find?_isSome_iff, hc.find?_eq_of_mem hi, IdMap.find?_isSome_iff]
  exact hi

end Copied

/-- A start that has an image is not copied: no state is made and no id drawn. -/
theorem HeapM.returns_copyGraph_of_find? (ids : IdSource)
    (hq : images.find? (h.graph.state start).id = some q) :
    Returns (HeapM.copyGraph start images (some ids)) h (q, images) h := by
  have himage : Copying.image h.graph ids ⟨h, images, []⟩ start = (q, ⟨h, images, []⟩) := by
    simp only [Copying.image, hq]
  unfold Returns
  rw [run_copyGraph, himage, Copying.run]

namespace SharedImages

theorem init (h : Heap) : SharedImages h [] ∅ h where
  grows := .refl h
  mem_iff {i} := by simp [Graph.BelowAny, ← IdMap.mem_keys]
  injective hi _ := by simp at hi
  mem hi := by simp at hi
  isFinal_eq _ hq := by simp at hq
  edges _ hq := by simp at hq
  returned c hc := absurd hc List.not_mem_nil

theorem grow (hs : SharedImages h calls images h') (hh : h'.Extends h'') :
    SharedImages h calls images h'' where
  grows := hs.grows.trans hh
  mem_iff := hs.mem_iff
  injective := hs.injective
  mem hi := hh.mem (hs.mem hi)
  isFinal_eq ht hq := by rw [hh.state_eq _ (hs.mem hq), hs.isFinal_eq ht hq]
  edges ht hq := by
    rw [hh.state_eq _ (hs.mem hq)]
    exact hs.edges ht hq
  returned := hs.returned

section Call

variable (hs : SharedImages h calls images h')
  (hd : h.graph.DistinctIdsBelow (calls.map (·.1) ++ [start])) (hstart : start ∈ h.graph)
  (hc : Copied h' images ids start root images' h'' copies)

include hs hd in
/-- What has an image lies below the start of a call. -/
theorem belowAny_of_mem (ht : h.graph.BelowAny (calls.map (·.1) ++ [start]) t)
    (hi : (h.graph.state t).id ∈ images) : h.graph.BelowAny (calls.map (·.1)) t := by
  obtain ⟨r, hr, hid⟩ := hs.mem_iff.1 hi
  rwa [← hd r t (hr.mono (List.subset_append_left _ _)) ht hid]

section Copies

variable {p : Ref × Ref} (hp : p ∈ copies)
include hs hstart hc hp

theorem reaches_of_mem_copies : h.graph.Reaches start p.1 :=
  (hs.grows.reaches_iff hstart).1 (hc.records.below p hp).reaches

theorem state_of_mem_copies : h'.graph.state p.1 = h.graph.state p.1 :=
  hs.grows.state_eq _ ((hs.reaches_of_mem_copies hstart hc hp).mem hstart)

theorem belowAny_of_mem_copies : h.graph.BelowAny (calls.map (·.1) ++ [start]) p.1 :=
  Graph.belowAny_concat.2 (Or.inr (hs.reaches_of_mem_copies hstart hc hp))

end Copies

include hs hd hstart hc

/-- A new image is the copy of the one state that it can stand for. -/
theorem mem_copies (ht : h.graph.BelowAny (calls.map (·.1) ++ [start]) t)
    (hq : images'.find? (h.graph.state t).id = some q) (hnew : (h.graph.state t).id ∉ images) :
    (t, q) ∈ copies := by
  obtain ⟨p, hp, hid, rfl⟩ := hc.exists_of_find? hq hnew
  rw [hs.state_of_mem_copies hstart hc hp] at hid
  rw [← hd p.1 t (hs.belowAny_of_mem_copies hstart hc hp) ht hid]
  exact hp

/-- The call leaves no state below its start without an image: a path that meets the images of other
calls goes on among them. -/
theorem mem_of_reaches (ht : h.graph.Reaches start t) : (h.graph.state t).id ∈ images' := by
  induction ht with
  | refl =>
    rw [← hs.grows.state_eq _ hstart]
    exact IdMap.mem_iff_exists_find?.2 ⟨root, hc.root_eq⟩
  | @step r t hr edge ih =>
    have hbelow : h.graph.BelowAny (calls.map (·.1) ++ [start]) r :=
      Graph.belowAny_concat.2 (Or.inr hr)
    by_cases hold : (h.graph.state r).id ∈ images
    · exact hc.mem_of_mem (hs.mem_iff.2 ⟨t, (hs.belowAny_of_mem hd hbelow hold).step edge, rfl⟩)
    · obtain ⟨q, hq⟩ := IdMap.mem_iff_exists_find?.1 ih
      have hp := hs.mem_copies hd hstart hc hbelow hq hold
      rw [← hs.grows.state_eq t ((hr.step edge).mem hstart)]
      rw [← hs.state_of_mem_copies hstart hc hp] at edge
      exact hc.mem_images' hp edge

/-- Both the images that were there and the new ones have their finality and their edges. -/
theorem isFinal_eq_and_edges (ht : h.graph.BelowAny (calls.map (·.1) ++ [start]) t)
    (hq : images'.find? (h.graph.state t).id = some q) :
    (h''.graph.state q).isFinal = (h.graph.state t).isFinal ∧
      List.Forall₂ (h.graph.IsEdgeImage images') (h.graph.state t).edges
        (h''.graph.state q).edges := by
  by_cases hold : (h.graph.state t).id ∈ images
  · rw [hc.find?_eq_of_mem hold] at hq
    have hbelow := hs.belowAny_of_mem hd ht hold
    rw [hc.records.kept q (hs.mem hq)]
    exact ⟨hs.isFinal_eq hbelow hq, Graph.forall₂_isEdgeImage_mono (hs.edges hbelow hq)
      (fun _ _ => rfl) hc.find?_of_find?⟩
  · have hp := hs.mem_copies hd hstart hc ht hq hold
    have hfinal := hc.records.isFinal_eq _ hp
    have hedges := hc.edges _ hp
    rw [hs.state_of_mem_copies hstart hc hp] at hfinal hedges
    refine ⟨hfinal, Graph.forall₂_isEdgeImage_mono hedges (fun e he => ?_) id⟩
    have htarget : e.2 ∈ (h.graph.state t).targets :=
      State.map_snd_edges _ ▸ List.mem_map.2 ⟨e, he, rfl⟩
    rw [hs.grows.state_eq e.2 (Graph.mem_of_mem_targets htarget)]

omit hd hstart in
/-- An image that was there is a state of the heap before the call, and a new one is not. -/
theorem mem_of_find? (hi : images'.find? i = some q) (hj : images'.find? j = some q)
    (hold : i ∈ images) : j ∈ images := by
  by_contra hnew
  rw [hc.find?_eq_of_mem hold] at hi
  obtain ⟨p, hp, -, rfl⟩ := hc.exists_of_find? hj hnew
  exact (hc.records.snd_mem hp).1 (hs.mem hi)

/-- One call more. -/
theorem call : SharedImages h (calls ++ [(start, root)]) images' h'' where
  grows := hs.grows.trans hc.grows
  mem_iff {i} := by
    simp only [List.map_append, List.map_singleton, Graph.belowAny_concat]
    constructor
    · intro hi
      by_cases hold : i ∈ images
      · obtain ⟨t, ht, hid⟩ := hs.mem_iff.1 hold
        exact ⟨t, Or.inl ht, hid⟩
      · obtain ⟨q, hq⟩ := IdMap.mem_iff_exists_find?.1 hi
        obtain ⟨p, hp, hid, -⟩ := hc.exists_of_find? hq hold
        rw [hs.state_of_mem_copies hstart hc hp] at hid
        exact ⟨p.1, Or.inr (hs.reaches_of_mem_copies hstart hc hp), hid⟩
    · rintro ⟨t, ht | ht, rfl⟩
      · exact hc.mem_of_mem (hs.mem_iff.2 ⟨t, ht, rfl⟩)
      · exact hs.mem_of_reaches hd hstart hc ht
  injective {i j q} hi hj := by
    by_cases hold : i ∈ images
    · have hold' := hs.mem_of_find? hc hi hj hold
      rw [hc.find?_eq_of_mem hold] at hi
      rw [hc.find?_eq_of_mem hold'] at hj
      exact hs.injective hi hj
    · exact hc.eq_of_find? hi hj hold fun hold' => hold (hs.mem_of_find? hc hj hi hold')
  mem hi := by
    refine hc.records.mem_of_find? (fun q hq => ?_) hi
    obtain ⟨j, hj⟩ := IdMap.mem_values.1 hq
    exact hs.mem hj
  isFinal_eq ht hq := by
    rw [List.map_append] at ht
    exact (hs.isFinal_eq_and_edges hd hstart hc ht hq).1
  edges ht hq := by
    rw [List.map_append] at ht
    exact (hs.isFinal_eq_and_edges hd hstart hc ht hq).2
  returned c hcall := by
    rcases List.mem_append.1 hcall with hcall | hcall
    · exact hc.find?_of_find? (hs.returned c hcall)
    · rw [List.mem_singleton.1 hcall, ← hs.grows.state_eq _ hstart]
      exact hc.root_eq

end Call

/-- The next copy is always made. -/
theorem exists_copied (hs : SharedImages h calls images h') (ids : IdSource) (start : Ref) :
    ∃ root images' h'' copies,
      Returns (HeapM.copyGraph start images (some ids)) h' (root, images') h'' ∧
      Copied h' images ids start root images' h'' copies := by
  refine EpsilonNfa.exists_copied ids start fun q hq => ?_
  obtain ⟨i, hi⟩ := IdMap.mem_values.1 hq
  exact hs.mem hi

theorem nodup_values (hs : SharedImages h calls images h') : images.values.Nodup := by
  refine List.Nodup.map_on ?_ (List.Nodup.of_map _ images.nodup_keys)
  rintro ⟨i, q⟩ hi ⟨j, _⟩ hj rfl
  rw [hs.injective (IdMap.find?_eq_some_iff.2 hi) (IdMap.find?_eq_some_iff.2 hj)]

/-- Runs over the same starts give each id an image, and the images differ by a renaming. -/
theorem exists_bijOn {calls' : List (Ref × Ref)} (hs : SharedImages h calls images h')
    (hs' : SharedImages h calls' images' h'')
    (hsame : ∀ s, s ∈ calls.map (·.1) ↔ s ∈ calls'.map (·.1)) :
    ∃ f : Ref → Ref, Set.BijOn f {q | q ∈ images.values} {q | q ∈ images'.values} ∧
      (∀ i q, images.find? i = some q → images'.find? i = some (f q)) ∧
      ∀ q ∈ images.values, (h''.graph.state (f q)).isFinal = (h'.graph.state q).isFinal ∧
        (h''.graph.state (f q)).edges = (h'.graph.state q).edges.map fun e => (e.1, f e.2) := by
  have hbelow : ∀ {t}, h.graph.BelowAny (calls.map (·.1)) t →
      h.graph.BelowAny (calls'.map (·.1)) t := fun ht => ht.mono fun s hs => (hsame s).1 hs
  have hmem : ∀ {i}, i ∈ images' → i ∈ images := by
    intro i hi
    obtain ⟨t, ht, hid⟩ := hs'.mem_iff.1 hi
    exact hs.mem_iff.2 ⟨t, ht.mono fun s hs => (hsame s).2 hs, hid⟩
  have hrename : ∀ q, ∃ q', ∀ i, images.find? i = some q → images'.find? i = some q' := by
    intro q
    by_cases hq : ∃ i, images.find? i = some q
    · obtain ⟨i, hi⟩ := hq
      obtain ⟨t, ht, hid⟩ := hs.mem_iff.1 (IdMap.mem_iff_exists_find?.2 ⟨_, hi⟩)
      obtain ⟨q', hq'⟩ := IdMap.mem_iff_exists_find?.1
        (hs'.mem_iff.2 ⟨t, hbelow ht, hid⟩)
      exact ⟨q', fun j hj => hs.injective hi hj ▸ hq'⟩
    · exact ⟨q, fun i hi => absurd ⟨i, hi⟩ hq⟩
  choose f hf using hrename
  refine ⟨f, ⟨fun q hq => ?_, fun q hq r hr heq => ?_, fun q hq => ?_⟩, fun i q => hf q i,
    fun q hq => ?_⟩
  · obtain ⟨i, hi⟩ := IdMap.mem_values.1 hq
    exact IdMap.mem_values.2 ⟨i, hf q i hi⟩
  · obtain ⟨i, hi⟩ := IdMap.mem_values.1 hq
    obtain ⟨j, hj⟩ := IdMap.mem_values.1 hr
    have hij := hs'.injective (hf q i hi) (heq ▸ hf r j hj)
    rw [hij] at hi
    exact Option.some.inj (hi.symm.trans hj)
  · obtain ⟨i, hi⟩ := IdMap.mem_values.1 hq
    obtain ⟨r, hr⟩ := IdMap.mem_iff_exists_find?.1
      (hmem (IdMap.mem_iff_exists_find?.2 ⟨_, hi⟩))
    exact ⟨r, IdMap.mem_values.2 ⟨i, hr⟩, Option.some.inj ((hf r i hr).symm.trans hi)⟩
  · obtain ⟨i, hi⟩ := IdMap.mem_values.1 hq
    obtain ⟨t, ht, rfl⟩ := hs.mem_iff.1 (IdMap.mem_iff_exists_find?.2 ⟨_, hi⟩)
    have hi' := hf q _ hi
    exact ⟨(hs'.isFinal_eq (hbelow ht) hi').trans (hs.isFinal_eq ht hi).symm,
      Graph.eq_map_of_forall₂_isEdgeImage (hf _ _) (hs.edges ht hi) (hs'.edges (hbelow ht) hi')⟩

end SharedImages

/-- What a run of calls leaves behind, whichever states they start from in which order. -/
theorem SharedCopies.sharedImages (hcalls : SharedCopies h calls images h')
    (hstarts : ∀ c ∈ calls, c.1 ∈ h.graph)
    (hd : h.graph.DistinctIdsBelow (calls.map (·.1))) : SharedImages h calls images h' := by
  induction hcalls with
  | init => exact .init h
  | grow _ hh ih => exact (ih hstarts hd).grow hh
  | @call calls _ _ _ _ start _ ids _ hcopy ih =>
    rw [List.map_append] at hd
    have hs := ih (fun c hc => hstarts c (List.mem_append_left _ hc))
      (hd.mono (List.subset_append_left _ _))
    have hstart := hstarts (start, _) (List.mem_append_right _ (List.mem_singleton.2 rfl))
    obtain ⟨_, _, _, copies, hcopy', hc⟩ := hs.exists_copied ids start
    obtain ⟨heq, rfl⟩ := hcopy.unique hcopy'
    cases heq
    exact hs.call hd hstart hc

/-- From any starts, in any order, there is a run. -/
theorem SharedCopies.exists_of_starts (ids : IdSource) (hroots : ∀ r ∈ roots, r ∈ h.graph)
    (hd : h.graph.DistinctIdsBelow roots) :
    ∃ calls images h', SharedCopies h calls images h' ∧ calls.map (·.1) = roots := by
  induction roots using List.reverseRecOn with
  | nil => exact ⟨[], ∅, h, .init, rfl⟩
  | append_singleton roots r ih =>
    obtain ⟨calls, images, h', hcalls, hmap⟩ := ih
      (fun s hs => hroots s (List.mem_append_left _ hs)) (hd.mono (List.subset_append_left _ _))
    have hs := hcalls.sharedImages
      (fun c hc => hroots c.1 (List.mem_append_left _ (hmap ▸ List.mem_map.2 ⟨c, hc, rfl⟩)))
      (hmap ▸ hd.mono (List.subset_append_left _ _))
    obtain ⟨root, images', h'', _, hcopy, -⟩ := hs.exists_copied ids r
    exact ⟨_, images', h'', hcalls.call hcopy, by rw [List.map_append, hmap]; rfl⟩

/-- Copies from several roots that share a table, where ids tell apart what lies below the roots. At
any time each root can be copied, and one whose id has an image is not copied again: its image is
returned, and heap and table stay as they are. When each root has been copied at least once, in any
order and from any sources, the ids with images are those of the states below the roots, the images
are all different and have the finality and, in their order, the edges of the states that they stand
for, and each call has returned the image of its root. Any two such runs differ by the renaming that
sends the image of an id in the one to its image in the other. -/
theorem HeapM.copyGraph_shared (hroots : ∀ r ∈ roots, r ∈ h.graph)
    (hd : h.graph.DistinctIdsBelow roots) :
    (∀ calls images h', SharedCopies h calls images h' → (∀ c ∈ calls, c.1 ∈ roots) →
      ∀ r ∈ roots, ∀ ids,
        (∃ root images' h'', Returns (copyGraph r images (some ids)) h' (root, images') h'') ∧
        ∀ q, images.find? (h.graph.state r).id = some q →
          Returns (copyGraph r images (some ids)) h' (q, images) h') ∧
    (∀ calls images h', SharedCopies h calls images h' →
      (∀ r, r ∈ calls.map (·.1) ↔ r ∈ roots) →
      (∀ i, i ∈ images ↔ ∃ t, h.graph.BelowAny roots t ∧ (h.graph.state t).id = i) ∧
      images.values.Nodup ∧
      (∀ t q, h.graph.BelowAny roots t → images.find? (h.graph.state t).id = some q →
        h.graph.IsImage images t h'.graph q) ∧
      ∀ c ∈ calls, images.find? (h.graph.state c.1).id = some c.2) ∧
    ∀ calls images h' calls' images' h'', SharedCopies h calls images h' →
      SharedCopies h calls' images' h'' → (∀ r, r ∈ calls.map (·.1) ↔ r ∈ roots) →
      (∀ r, r ∈ calls'.map (·.1) ↔ r ∈ roots) →
      ∃ f : Ref → Ref, Set.BijOn f {q | q ∈ images.values} {q | q ∈ images'.values} ∧
        (∀ i q, images.find? i = some q → images'.find? i = some (f q)) ∧
        ∀ q ∈ images.values, (h''.graph.state (f q)).isFinal = (h'.graph.state q).isFinal ∧
          (h''.graph.state (f q)).edges = (h'.graph.state q).edges.map fun e => (e.1, f e.2) := by
  have hshared : ∀ {calls images h'}, SharedCopies h calls images h' →
      (∀ c ∈ calls, c.1 ∈ roots) → SharedImages h calls images h' := fun hcalls hsub =>
    hcalls.sharedImages (fun c hc => hroots c.1 (hsub c hc)) <|
      hd.mono fun r hr => by
        obtain ⟨c, hc, rfl⟩ := List.mem_map.1 hr
        exact hsub c hc
  have hsub : ∀ {calls : List (Ref × Ref)}, (∀ r, r ∈ calls.map (·.1) ↔ r ∈ roots) →
      ∀ c ∈ calls, c.1 ∈ roots := fun hall c hc => (hall c.1).1 (List.mem_map.2 ⟨c, hc, rfl⟩)
  refine ⟨fun calls images h' hcalls hall r hr ids => ?_, fun calls images h' hcalls hall => ?_,
    fun calls images h' calls' images' h'' hcalls hcalls' hall hall' => ?_⟩
  · have hs := hshared hcalls hall
    obtain ⟨root, images', h'', _, hcopy, -⟩ := hs.exists_copied ids r
    refine ⟨⟨root, images', h'', hcopy⟩, fun q hq => returns_copyGraph_of_find? ids ?_⟩
    rwa [hs.grows.state_eq r (hroots r hr)]
  · have hs := hshared hcalls (hsub hall)
    have hbelow : ∀ {t}, h.graph.BelowAny roots t ↔ h.graph.BelowAny (calls.map (·.1)) t :=
      ⟨fun ht => ht.mono fun r hr => (hall r).2 hr, fun ht => ht.mono fun r hr => (hall r).1 hr⟩
    simp only [hbelow]
    exact ⟨fun i => hs.mem_iff, hs.nodup_values, fun t q ht hq =>
      Graph.isImage_of_edges (hs.isFinal_eq ht hq) (hs.edges ht hq), hs.returned⟩
  · exact (hshared hcalls (hsub hall)).exists_bijOn (hshared hcalls' (hsub hall'))
      fun r => (hall r).trans (hall' r).symm

/-- From the second and the third state of the fork, in both orders. -/
theorem HeapM.copyGraph_shared_fork :
    (∀ r ∈ [(⟨1⟩ : Ref), ⟨2⟩], r ∈ Heap.fork.graph) ∧
      Heap.fork.graph.DistinctIdsBelow [⟨1⟩, ⟨2⟩] ∧
      ∃ calls images h' calls' images' h'', SharedCopies Heap.fork calls images h' ∧
        SharedCopies Heap.fork calls' images' h'' ∧ calls.map (·.1) = [⟨1⟩, ⟨2⟩] ∧
        calls'.map (·.1) = [⟨2⟩, ⟨1⟩, ⟨2⟩] ∧ 3 ∈ images ∧
        ∃ f : Ref → Ref, Set.BijOn f {q | q ∈ images.values} {q | q ∈ images'.values} := by
  have hroots : ∀ r ∈ [(⟨1⟩ : Ref), ⟨2⟩], r ∈ Heap.fork.graph := by decide
  have hd : Heap.fork.graph.DistinctIdsBelow [⟨1⟩, ⟨2⟩] := .of_nodup hroots (by decide)
  obtain ⟨calls, images, h', hcalls, hstarts⟩ := SharedCopies.exists_of_starts ⟨0⟩ hroots hd
  have hroots' : ∀ r ∈ [(⟨2⟩ : Ref), ⟨1⟩, ⟨2⟩], r ∈ Heap.fork.graph := by decide
  obtain ⟨calls', images', h'', hcalls', hstarts'⟩ :=
    SharedCopies.exists_of_starts ⟨0⟩ hroots' (hd.mono (by simp))
  have hall : ∀ r, r ∈ calls.map (·.1) ↔ r ∈ [(⟨1⟩ : Ref), ⟨2⟩] := fun r => by rw [hstarts]
  have hall' : ∀ r, r ∈ calls'.map (·.1) ↔ r ∈ [(⟨1⟩ : Ref), ⟨2⟩] := fun r => by
    rw [hstarts']
    simp only [List.mem_cons, List.not_mem_nil, or_false]
    tauto
  obtain ⟨-, hleft, hrename⟩ := HeapM.copyGraph_shared hroots hd
  obtain ⟨f, hf, -⟩ := hrename _ _ _ _ _ _ hcalls hcalls' hall hall'
  refine ⟨hroots, hd, calls, images, h', calls', images', h'', hcalls, hcalls', hstarts, hstarts',
    ((hleft _ _ _ hcalls hall).1 3).2 ⟨⟨3⟩, ⟨⟨2⟩, by simp, ?_⟩, rfl⟩, f, hf⟩
  exact Graph.Reaches.refl.step (by decide)

end EpsilonNfa
