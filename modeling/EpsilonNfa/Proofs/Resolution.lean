import EpsilonNfa.Proofs.ConcatShape

/-!
# Searches in copies

An automaton that was copied finds its new stop by a search: the table of images gives a state, and
the copy is searched for a state with the id of that one. The search is a long way to what the table
holds. Copies have ids of their own and every image lies below the new root, so the search finds the
image itself, whatever the ids of the original are, and also when more has been copied in between
(`Copied.findsImages`). What is left of copies and concatenations are lookups, which fail only for
ids that a traversal of the original does not meet (`Automaton.combined_or_notFound`).
-/

namespace EpsilonNfa

variable {h h' h'' : Heap} {images images' : IdMap} {ids : IdSource} {start root r q : Ref}
variable {copies : List (Ref × Ref)} {i : Int} {l : List Int}

/-! ## Lookups -/

namespace IdMap

/-- The image of an id, which fails if there is none. -/
def get (images : IdMap) (i : Int) : Except Error Ref :=
  match images.find? i with
  | some q => .ok q
  | none => .error (.notCopied i)

theorem get_of_mem (r : Ref) (hi : i ∈ images) : images.get i = .ok (images.imageOfId r i) := by
  obtain ⟨q, hq⟩ := mem_iff_exists_find?.1 hi
  rw [get, imageOfId, hq, Option.getD_some]

theorem get_of_not_mem (hi : i ∉ images) : images.get i = .error (.notCopied i) := by
  rw [get, find?_eq_none_iff.2 hi]

theorem mapM_get_of_forall (r : Ref) (hl : ∀ i ∈ l, i ∈ images) :
    l.mapM images.get = .ok (l.map (images.imageOfId r)) := by
  induction l with
  | nil => rfl
  | cons i l ih =>
    rw [List.mapM_cons, get_of_mem r (hl i List.mem_cons_self),
      ih fun j hj => hl j (List.mem_cons_of_mem _ hj)]
    rfl

/-- The first id without an image makes the others fail with it. -/
theorem exists_mapM_get_eq_error (hi : i ∈ l) (hnew : i ∉ images) :
    ∃ j, l.mapM images.get = .error (.notCopied j) := by
  induction l with
  | nil => cases hi
  | cons k l ih =>
    rw [List.mapM_cons]
    by_cases hk : k ∈ images
    · have hne : i ≠ k := fun heq => hnew (heq ▸ hk)
      obtain ⟨j, hj⟩ := ih ((List.mem_cons.1 hi).resolve_left hne)
      exact ⟨j, by rw [get_of_mem default hk, hj]; rfl⟩
    · exact ⟨k, by rw [get_of_not_mem hk]; rfl⟩

end IdMap

/-! ## Searches are lookups -/

/-- An operation that gives an answer where `P` holds, and otherwise finds some state missing. -/
theorem fails_iff {α σ : Type} {m : ExceptT Error (StateM σ) α} {s : σ} {P : Prop}
    (hreturns : P → ∃ a s', Returns m s a s')
    (hfails : ¬ P → ∃ i s', Fails m s (.notCopied i) s') :
    ((∃ e s', Fails m s e s') ↔ ¬ P) ∧ ∀ e s', Fails m s e s' → e.isNotFound = true := by
  have hnot : ∀ {e s'}, Fails m s e s' → ¬ P := by
    intro e s' he hP
    obtain ⟨a, s'', ha⟩ := hreturns hP
    exact he.not_returns ha
  refine ⟨⟨fun ⟨e, s', he⟩ => hnot he, fun hP => ?_⟩, fun e s' he => ?_⟩
  · obtain ⟨i, s', hi⟩ := hfails hP
    exact ⟨_, s', hi⟩
  · obtain ⟨i, s'', hi⟩ := hfails (hnot he)
    rw [(he.unique hi).1]
    rfl

/-- On the heap, a search below `root` for what stands for a state gives the image of its id, and
fails if there is none. -/
def Heap.FindsImages (h : Heap) (root : Ref) (images : IdMap) : Prop :=
  ∀ old, (Automaton.resolve root images old).run.run h = (images.get (h.graph.state old).id, h)

/-- A copy is searched as its table is looked up, also on a heap that has grown since. -/
theorem Copied.findsImages (hc : Copied h ∅ ids start root images' h' copies)
    (horder : copies.map (·.1) = h.graph.breadthFirst start) (hids : ids ∈ h)
    (hh : h'.Extends h'') : h''.FindsImages root images' := by
  intro old
  have hkeys := hc.keys_eq_idsBelow horder
  by_cases hold : (h''.graph.state old).id ∈ images'
  · rw [IdMap.get_of_mem start hold]
    rw [← IdMap.mem_keys, hkeys] at hold
    exact hc.returns_resolve_of_mem horder hids hh rfl hold
  · rw [IdMap.get_of_not_mem hold]
    rw [← IdMap.mem_keys, hkeys] at hold
    exact hc.run_resolve_of_not_mem horder rfl hold

/-- An operation that leaves the state alone has for all members of a list the outcomes that it has
for each. -/
theorem run_mapM_of_run_eq_outcome {α γ σ : Type} {f : γ → ExceptT Error (StateM σ) α}
    {g : γ → Except Error α} {s : σ} (hf : ∀ x, (f x).run.run s = (g x, s)) (l : List γ) :
    (l.mapM f).run.run s = (l.mapM g, s) := by
  induction l with
  | nil => rfl
  | cons x l ih =>
    rw [List.mapM_cons, List.mapM_cons, run_bind, hf]
    cases g x with
    | error e => rfl
    | ok b =>
      show (l.mapM f >>= fun bs => pure (b :: bs)).run.run s = _
      rw [run_bind, ih]
      cases l.mapM g <;> rfl

namespace Heap.FindsImages

/-- A search that returns gives the image, and leaves the heap alone. -/
theorem eq_of_returns (hfind : h.FindsImages root images)
    (hreturns : Returns (Automaton.resolve root images r) h q h') :
    images.find? (h.graph.state r).id = some q ∧ h' = h := by
  unfold Returns at hreturns
  rw [hfind] at hreturns
  obtain ⟨hget, hheap⟩ := Prod.mk.inj hreturns
  refine ⟨?_, hheap.symm⟩
  unfold IdMap.get at hget
  split at hget
  · next heq => rw [heq, Except.ok.inj hget]
  · cases hget

theorem fails (hfind : h.FindsImages root images) (hr : (h.graph.state r).id ∉ images) :
    Fails (Automaton.resolve root images r) h (.notCopied (h.graph.state r).id) h := by
  unfold Fails
  rw [hfind r, IdMap.get_of_not_mem hr]

theorem run_mapM (hfind : h.FindsImages root images) (l : List Ref) :
    (l.mapM (Automaton.resolve root images)).run.run h =
      ((l.map fun r => (h.graph.state r).id).mapM images.get, h) := by
  rw [run_mapM_of_run_eq_outcome hfind, List.mapM_map]
  rfl

end Heap.FindsImages

/-! ## Copies and concatenations -/

namespace Automaton

variable {a b c : Automaton}

/-- Ids tell apart what lies below the start, and the stop and the cursor lie there. -/
structure WellFormed (g : Graph) (c : Automaton) : Prop where
  distinctIds : g.DistinctIds c.start
  stop : g.Reaches c.start c.stop
  current : ∀ r ∈ c.current, g.Reaches c.start r

/-- What is looked for when an automaton is copied has ids that a traversal from the start meets. -/
def CursorMet (g : Graph) (a : Automaton) : Prop :=
  ∀ r ∈ a.stop :: a.current, (g.state r).id ∈ g.idsBelow a.start

section Copy

variable (hcopy : Returns (HeapM.copyGraph a.start ∅ (some a.ids)) h (root, images) h')
  (hfind : h'.FindsImages root images) (hh : h.Extends h') (ha : a.Within h)
include hcopy hfind hh ha

/-- Where all lookups give images, an automaton is copied and refers to these images. -/
theorem returns_copy_of_forall (hmem : ∀ r ∈ a.stop :: a.current, (h.graph.state r).id ∈ images) :
    Returns a.copy h
      { start := root
        stop := images.imageOfId a.start (h.graph.state a.stop).id
        ids := a.ids
        current := (a.current.map fun r =>
          images.imageOfId a.start (h.graph.state r).id).eraseDups } h' := by
  have hstop : Returns (resolve root images a.stop) h'
      (images.imageOfId a.start (h.graph.state a.stop).id) h' := by
    unfold Returns
    rw [hfind, hh.state_eq _ ha.stop, IdMap.get_of_mem a.start (hmem _ List.mem_cons_self)]
  have hcurrent : Returns (a.current.mapM (resolve root images)) h'
      (a.current.map fun r => images.imageOfId a.start (h.graph.state r).id) h' := by
    have hids : (a.current.map fun r => (h'.graph.state r).id) =
        a.current.map fun r => (h.graph.state r).id :=
      List.map_congr_left fun r hr => by rw [hh.state_eq r (ha.current r hr)]
    have hall : ∀ i ∈ a.current.map fun r => (h.graph.state r).id, i ∈ images :=
      List.forall_mem_map.2 fun r hr => hmem r (List.mem_cons_of_mem _ hr)
    unfold Returns
    rw [hfind.run_mapM, hids, IdMap.mapM_get_of_forall a.start hall, List.map_map]
    rfl
  unfold copy
  exact .bind hcopy (.bind hstop (.bind hcurrent (.pure _ h')))

/-- Where a lookup finds no image, the copy is not made. -/
theorem copy_fails_of_exists (hnot : ∃ r ∈ a.stop :: a.current, (h.graph.state r).id ∉ images) :
    ∃ i, Fails a.copy h (.notCopied i) h' := by
  have hstop := hh.state_eq _ ha.stop
  by_cases hmem : (h.graph.state a.stop).id ∈ images
  · obtain ⟨r, hr, hnot⟩ := hnot
    have hr : r ∈ a.current := (List.mem_cons.1 hr).resolve_left fun heq => hnot (heq ▸ hmem)
    have hi : (h.graph.state r).id ∈ a.current.map fun r => (h'.graph.state r).id :=
      List.mem_map.2 ⟨r, hr, by rw [hh.state_eq r (ha.current r hr)]⟩
    obtain ⟨i, hget⟩ := IdMap.exists_mapM_get_eq_error hi hnot
    have hcurrent : Fails (a.current.mapM (resolve root images)) h' (.notCopied i) h' := by
      unfold Fails
      rw [hfind.run_mapM, hget]
    have hresolve : Returns (resolve root images a.stop) h'
        (images.imageOfId a.start (h.graph.state a.stop).id) h' := by
      unfold Returns
      rw [hfind, hstop, IdMap.get_of_mem a.start hmem]
    exact ⟨i, .of_bind hcopy (.of_bind hresolve (hcurrent.bind _))⟩
  · rw [← hstop] at hmem
    exact ⟨_, .of_bind hcopy ((hfind.fails hmem).bind _)⟩

end Copy

/-- What becomes of a copy. -/
theorem copy_outcome (ha : a.Within h) :
    ∃ start images h', Returns (HeapM.copyGraph a.start ∅ (some a.ids)) h (start, images) h' ∧
      h'.FindsImages start images ∧
      (a.CursorMet h.graph → ∃ c, Returns a.copy h c h' ∧ c.WellFormed h'.graph ∧
        c.start = start ∧ images.find? (h.graph.state a.stop).id = some c.stop ∧
        ∀ q, q ∈ c.current ↔ ∃ r ∈ a.current, images.find? (h.graph.state r).id = some q) ∧
      (¬ a.CursorMet h.graph → ∃ i, Fails a.copy h (.notCopied i) h') := by
  obtain ⟨start, images, h', copies, hcopy, hc, horder⟩ :=
    exists_copied_breadthFirst h a.ids a.start
  have hfind := hc.findsImages horder ha.ids (.refl h')
  have hmem : ∀ {i}, i ∈ images ↔ i ∈ h.graph.idsBelow a.start := by
    intro i
    rw [← IdMap.mem_keys, hc.keys_eq_idsBelow horder]
  refine ⟨start, images, h', hcopy, hfind, fun hmet => ?_, fun hmet => ?_⟩
  · have himage : ∀ r ∈ a.stop :: a.current, images.find? (h.graph.state r).id =
        some (images.imageOfId a.start (h.graph.state r).id) :=
      fun r hr => hc.find?_imageOfId horder (hmet r hr)
    have hbelow : ∀ r ∈ a.stop :: a.current,
        h'.graph.Reaches start (images.imageOfId a.start (h.graph.state r).id) := fun r hr =>
      Graph.reaches_below.1 <|
        (hc.isIso_shape horder).reaches_iff.2 ⟨_, Graph.reaches_shape.2 (hmet r hr), rfl⟩
    refine ⟨_, returns_copy_of_forall hcopy hfind hc.grows ha fun r hr => hmem.2 (hmet r hr),
      ⟨hc.distinctIds ha.ids, hbelow _ List.mem_cons_self, fun q hq => ?_⟩, rfl,
      himage _ List.mem_cons_self, fun q => ?_⟩
    · obtain ⟨r, hr, rfl⟩ := List.mem_map.1 (List.mem_eraseDups.1 hq)
      exact hbelow r (List.mem_cons_of_mem _ hr)
    · rw [List.mem_eraseDups, List.mem_map]
      constructor
      · rintro ⟨r, hr, rfl⟩
        exact ⟨r, hr, himage r (List.mem_cons_of_mem _ hr)⟩
      · rintro ⟨r, hr, hq⟩
        rw [himage r (List.mem_cons_of_mem _ hr)] at hq
        exact ⟨r, hr, Option.some.inj hq⟩
  · unfold CursorMet at hmet
    push Not at hmet
    simp only [← hmem] at hmet
    exact copy_fails_of_exists hcopy hfind hc.grows ha hmet

/-- A concatenation that returns was made of two copies, and stops at an image of the second. -/
theorem exists_of_returns_concat {aStart bStart : Ref} {aImages bImages : IdMap} {h₁ h₂ : Heap}
    (hreturns : Returns (a.concat b) h c h')
    (hacopy : Returns (HeapM.copyGraph a.start ∅ (some a.ids)) h (aStart, aImages) h₁)
    (hbcopy : Returns (HeapM.copyGraph b.start ∅ (some a.ids)) h₁ (bStart, bImages) h₂)
    (hafind : h₂.FindsImages aStart aImages) (hbfind : h₂.FindsImages bStart bImages) :
    ∃ bStop, bImages.find? (h₂.graph.state b.stop).id = some bStop ∧
      c = ofStates aStart bStop a.ids := by
  unfold concat at hreturns
  obtain ⟨_, _, hacopy', hrest⟩ := hreturns.exists_of_bind
  obtain ⟨rfl, rfl⟩ := hacopy.unique hacopy'
  obtain ⟨_, _, hbcopy', hrest⟩ := hrest.exists_of_bind
  obtain ⟨rfl, rfl⟩ := hbcopy.unique hbcopy'
  obtain ⟨aStop, h₃, hresolve, hrest⟩ := hrest.exists_of_bind
  rw [(hafind.eq_of_returns hresolve).2] at hrest
  obtain ⟨bStop, h₃, hresolve, hrest⟩ := hrest.exists_of_bind
  have himage := (hbfind.eq_of_returns hresolve).1
  obtain ⟨_, _, -, hrest⟩ := hrest.exists_of_bind
  obtain ⟨_, _, -, hrest⟩ := hrest.exists_of_bind
  cases hrest
  exact ⟨bStop, himage, rfl⟩

/-- What becomes of a concatenation. -/
theorem concat_outcome (ha : a.Within h) (hb : b.Within h) :
    ∃ aStart aImages h₁ bStart bImages h₂,
      Returns (HeapM.copyGraph a.start ∅ (some a.ids)) h (aStart, aImages) h₁ ∧
      Returns (HeapM.copyGraph b.start ∅ (some a.ids)) h₁ (bStart, bImages) h₂ ∧
      h₂.FindsImages aStart aImages ∧ h₂.FindsImages bStart bImages ∧
      (a.StopMet h.graph ∧ b.StopMet h.graph → ∃ c h', Returns (a.concat b) h c h' ∧
        c.WellFormed h'.graph ∧ c.start = aStart ∧
        bImages.find? (h.graph.state b.stop).id = some c.stop ∧ c.current = [c.start]) ∧
      (¬ (a.StopMet h.graph ∧ b.StopMet h.graph) →
        ∃ i h', Fails (a.concat b) h (.notCopied i) h') := by
  obtain ⟨aStart, aImages, h₁, aCopies, hacopy, hca, haorder⟩ :=
    exists_copied_breadthFirst h a.ids a.start
  obtain ⟨bStart, bImages, h₂, bCopies, hbcopy, hcb, hborder⟩ :=
    exists_copied_breadthFirst h₁ a.ids b.start
  have hafind := hca.findsImages haorder ha.ids hcb.grows
  have hbfind := hcb.findsImages hborder (hca.grows.source ha.ids) (.refl h₂)
  refine ⟨aStart, aImages, h₁, bStart, bImages, h₂, hacopy, hbcopy, hafind, hbfind, ?_,
    concat_fails ha hb⟩
  rintro ⟨hamet, hbmet⟩
  obtain ⟨c, h', hreturns, -, -, hrealizes⟩ :=
    exists_concat_of_hasShape ha hb hamet.hasShape hbmet.hasShape
  obtain ⟨bStop, hbStop, rfl⟩ := exists_of_returns_concat hreturns hacopy hbcopy hafind hbfind
  rw [(hca.grows.trans hcb.grows).state_eq _ hb.stop] at hbStop
  exact ⟨_, h', hreturns,
    ⟨hrealizes.distinctIds, hrealizes.reaches_stop, fun r hr => List.mem_singleton.1 hr ▸ .refl⟩,
    rfl, hbStop, rfl⟩

/-- Copies and concatenations of any automata: ids may collide inside an operand, with those of the
other and with those that the source gives next. A copy fails exactly if the id of the stop or of a
state at the cursor is none that a traversal from the start meets, a concatenation exactly if this
holds of the stop of an operand, and what fails has not found a state. Below the copies searches are
lookups, whichever state they are for, and in a concatenation both are made before the two copies
are linked. Otherwise the automaton is made, it refers to the images, and ids tell apart what lies
below its start. -/
theorem combined_or_notFound (ha : a.Within h) (hb : b.Within h) :
    ((∃ e h', Fails a.copy h e h') ↔
      ∃ r ∈ a.stop :: a.current, (h.graph.state r).id ∉ h.graph.idsBelow a.start) ∧
    ((∃ e h', Fails (a.concat b) h e h') ↔
      (h.graph.state a.stop).id ∉ h.graph.idsBelow a.start ∨
        (h.graph.state b.stop).id ∉ h.graph.idsBelow b.start) ∧
    (∀ e h', Fails a.copy h e h' ∨ Fails (a.concat b) h e h' → e.isNotFound = true) ∧
    (∃ start images h', Returns (HeapM.copyGraph a.start ∅ (some a.ids)) h (start, images) h' ∧
      h'.FindsImages start images ∧
      ((∀ r ∈ a.stop :: a.current, (h.graph.state r).id ∈ h.graph.idsBelow a.start) →
        ∃ c, Returns a.copy h c h' ∧ c.WellFormed h'.graph ∧ c.start = start ∧
          images.find? (h.graph.state a.stop).id = some c.stop ∧
          ∀ q, q ∈ c.current ↔ ∃ r ∈ a.current, images.find? (h.graph.state r).id = some q)) ∧
    ∃ aStart aImages h₁ bStart bImages h₂,
      Returns (HeapM.copyGraph a.start ∅ (some a.ids)) h (aStart, aImages) h₁ ∧
      Returns (HeapM.copyGraph b.start ∅ (some a.ids)) h₁ (bStart, bImages) h₂ ∧
      h₂.FindsImages aStart aImages ∧ h₂.FindsImages bStart bImages ∧
      ((h.graph.state a.stop).id ∈ h.graph.idsBelow a.start →
        (h.graph.state b.stop).id ∈ h.graph.idsBelow b.start →
        ∃ c h', Returns (a.concat b) h c h' ∧ c.WellFormed h'.graph ∧ c.start = aStart ∧
          bImages.find? (h.graph.state b.stop).id = some c.stop ∧ c.current = [c.start]) := by
  obtain ⟨start, images, h', hcopy, hfind, hmade, hfails⟩ := copy_outcome ha
  obtain ⟨aStart, aImages, h₁, bStart, bImages, h₂, hacopy, hbcopy, hafind, hbfind, hmade',
    hfails'⟩ := concat_outcome ha hb
  simp only [StopMet, Graph.reaches_shape] at hmade' hfails'
  have hcopyFails := fails_iff (fun hmet => (hmade hmet).imp fun c hc => ⟨h', hc.1⟩) fun hmet =>
    (hfails hmet).imp fun i hi => ⟨h', hi⟩
  have hconcatFails := fails_iff
    (fun hmet => (hmade' hmet).imp fun c hc => hc.imp fun h' hc => hc.1) hfails'
  refine ⟨?_, ?_, ?_, ⟨start, images, h', hcopy, hfind, hmade⟩,
    aStart, aImages, h₁, bStart, bImages, h₂, hacopy, hbcopy, hafind, hbfind,
    fun hamet hbmet => hmade' ⟨hamet, hbmet⟩⟩
  · rw [hcopyFails.1, CursorMet]
    push Not
    rfl
  · rw [hconcatFails.1, not_and_or]
  · rintro e h'' (hfails | hfails)
    · exact hcopyFails.2 e h'' hfails
    · exact hconcatFails.2 e h'' hfails

/-- An automaton that stops at the second of the twins, with its cursor at both: it is copied, and
with one behind it whose stop lies before its start it is not. -/
theorem combined_or_notFound_twins :
    let h : Heap := { graph := .twins, nextIds := #[1] }
    let a : Automaton := { start := ⟨0⟩, stop := ⟨2⟩, ids := ⟨0⟩, current := [⟨1⟩, ⟨2⟩] }
    let b : Automaton := .ofStates ⟨2⟩ ⟨0⟩ ⟨0⟩
    a.Within h ∧ b.Within h ∧ (∃ c h', Returns a.copy h c h' ∧ c.WellFormed h'.graph) ∧
      ∃ e h', Fails (a.concat b) h e h' ∧ e.isNotFound = true := by
  intro h a b
  have ha : a.Within h := by decide
  have hb : b.Within h := by decide
  obtain ⟨-, hconcat, hnotFound, ⟨_, _, h', _, _, hcopy⟩, -⟩ := combined_or_notFound ha hb
  have htwin : (1 : Int) ∈ Graph.twins.idsBelow ⟨0⟩ := Graph.reaches_shape.1 stopMet_twins
  have hcursor : ∀ r ∈ a.stop :: a.current, (h.graph.state r).id ∈ h.graph.idsBelow a.start := by
    intro r hr
    simp only [a, List.mem_cons, List.not_mem_nil, or_false] at hr
    rcases hr with rfl | rfl | rfl <;> exact htwin
  have halone : ∀ r, h.graph.Reaches ⟨2⟩ r → r = ⟨2⟩ := by
    intro r hr
    induction hr with
    | refl => rfl
    | step _ edge ih =>
      rw [ih] at edge
      cases edge
  have hbefore : (h.graph.state b.stop).id ∉ h.graph.idsBelow b.start := by
    intro hmem
    obtain ⟨r, hr, hid⟩ := Graph.mem_idsBelow.1 hmem
    rw [halone r (Graph.reaches_of_mem_breadthFirst hr)] at hid
    exact absurd hid (by decide)
  obtain ⟨c, hreturns, hc, -⟩ := hcopy hcursor
  obtain ⟨e, h'', hfails⟩ := hconcat.2 (Or.inr hbefore)
  exact ⟨ha, hb, ⟨c, h', hreturns, hc⟩, e, h'', hfails, hnotFound e h'' (Or.inr hfails)⟩

end Automaton

end EpsilonNfa
