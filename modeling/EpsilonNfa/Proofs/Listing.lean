import EpsilonNfa.Automaton.Simulation
import EpsilonNfa.Proofs.GraphShape
import EpsilonNfa.Proofs.ShapeListing
import EpsilonNfa.Proofs.Simulation
import Mathlib.Data.List.Sort

/-!
# Listings are canonical

A listing hands numbers out as ids are mentioned, first by the traversal and then by the edges. The
traversal has mentioned every id that an edge leads to, so in the end the number of an id is its
place in the traversal (`Graph.listing_eq`), and a listing is that of the shape which the traversal
sees. Where ids tell states apart it is equal for two graphs exactly when they are isomorphic
(`Automaton.listing_canonical`).
-/

namespace EpsilonNfa

/-! ## Numbers by first mention -/

namespace Numbering

variable {n : Numbering} {id : Int} {first : Nat} {ids : List Int}

/-- The number of an id that has one. -/
def numberOf (n : Numbering) (id : Int) : Nat :=
  n.first + n.ids.idxOf id

theorem run_number_of_mem (h : id ∈ n.ids) : (number id).run n = (n.numberOf id, n) := by
  show n.mention id = _
  unfold mention
  have hfind : n.ids.idxOf? id = some (n.ids.idxOf id) := by
    rw [List.idxOf?_eq_some_iff]
    refine ⟨List.idxOf_lt_length_iff.2 h, List.getElem_idxOf _, fun j hj heq => ?_⟩
    simpa [heq] using List.not_of_lt_findIdx hj
  rw [hfind]
  rfl

theorem run_number_of_not_mem (h : id ∉ ids) :
    (number id).run ⟨first, ids⟩ =
      (numberOf ⟨first, ids ++ [id]⟩ id, ⟨first, ids ++ [id]⟩) := by
  show mention ⟨first, ids⟩ id = _
  unfold mention numberOf
  simp only [List.idxOf?_eq_none_iff.2 h, List.idxOf_append_of_notMem h, List.idxOf_cons_self]
  rfl

/-- Ids keep their numbers while others get theirs. -/
theorem numberOf_append (h : id ∈ ids) (more : List Int) :
    numberOf ⟨first, ids ++ more⟩ id = numberOf ⟨first, ids⟩ id := by
  unfold numberOf
  rw [List.idxOf_append_of_mem h]

end Numbering

theorem run_stateM_bind {α β σ : Type} (m : StateM σ α) (f : α → StateM σ β) (s : σ) :
    (m >>= f).run s = (f (m.run s).1).run (m.run s).2 := rfl

/-- What leaves the state as it is does so for all members of a list. -/
theorem run_mapM_of_run_eq {α β σ : Type} {f : α → StateM σ β} {F : α → β} {s : σ} {l : List α}
    (h : ∀ x ∈ l, (f x).run s = (F x, s)) : (l.mapM f).run s = (l.map F, s) := by
  induction l with
  | nil => rfl
  | cons x l ih =>
    rw [List.mapM_cons, run_stateM_bind, h x List.mem_cons_self, run_stateM_bind,
      ih fun y hy => h y (List.mem_cons_of_mem _ hy)]
    rfl

/-- New ids get the next numbers, whatever is made of these. -/
theorem Numbering.run_mapM_number {α β : Type} {ids : List Int} (id : α → Int) (line : α → Nat → β)
    (first : Nat) (l : List α) (h : (ids ++ l.map id).Nodup) :
    (l.mapM fun x => line x <$> number (id x)).run ⟨first, ids⟩ =
      (l.map fun x => line x (numberOf ⟨first, ids ++ l.map id⟩ (id x)),
        ⟨first, ids ++ l.map id⟩) := by
  induction l generalizing ids with
  | nil =>
    rw [List.map_nil, List.map_nil, List.append_nil]
    rfl
  | cons x l ih =>
    have hids : ids ++ (x :: l).map id = ids ++ [id x] ++ l.map id := by
      rw [List.map_cons, List.append_cons]
    rw [hids] at h ⊢
    have hnew : id x ∉ ids := fun hmem =>
      List.nodup_append.1 (List.nodup_append.1 h).1 |>.2.2 _ hmem _ List.mem_cons_self rfl
    have hfirst : (line x <$> number (id x)).run ⟨first, ids⟩ =
        (line x (numberOf ⟨first, ids ++ [id x]⟩ (id x)), ⟨first, ids ++ [id x]⟩) := by
      rw [StateT.run_map, run_number_of_not_mem hnew]
      rfl
    have hkeeps : numberOf ⟨first, ids ++ [id x] ++ l.map id⟩ (id x) =
        numberOf ⟨first, ids ++ [id x]⟩ (id x) :=
      numberOf_append (List.mem_append_right _ List.mem_cons_self) _
    rw [List.mapM_cons, run_stateM_bind, hfirst, run_stateM_bind, ih h, List.map_cons,
      hkeeps]
    rfl

namespace Graph

variable {g : Graph} {s : Ref} {n : Numbering} {l : List Ref} {first : Nat} {ids : List Int}

/-- A state as a listing knows it. -/
def numbered (g : Graph) (n : Numbering) (r : Ref) : Nat × Bool :=
  (n.numberOf (g.state r).id, (g.state r).isFinal)

theorem run_numberStates_cons (g : Graph) (r : Ref) (l : List Ref) {n' : Numbering} {number : Nat}
    (h : (Numbering.number (g.state r).id).run n = (number, n')) :
    (g.numberStates (r :: l)).run n =
      ((number, (g.state r).isFinal) :: ((g.numberStates l).run n').1,
        ((g.numberStates l).run n').2) := by
  unfold numberStates
  rw [List.mapM_cons, run_stateM_bind, run_stateM_bind, run_stateM_bind, h]
  rfl

/-- States with new ids get the next numbers. -/
theorem run_numberStates (first : Nat) (l : List Ref)
    (h : (ids ++ l.map fun r => (g.state r).id).Nodup) :
    (g.numberStates l).run ⟨first, ids⟩ =
      (l.map (g.numbered ⟨first, ids ++ l.map fun r => (g.state r).id⟩),
        ⟨first, ids ++ l.map fun r => (g.state r).id⟩) :=
  Numbering.run_mapM_number (fun r => (g.state r).id) (fun r k => (k, (g.state r).isFinal)) first l
    h

theorem run_numberEdge {e : Edge} (hsource : (g.state e.source).id ∈ n.ids)
    (htarget : (g.state e.target).id ∈ n.ids) :
    (g.numberEdge e).run n =
      (⟨n.numberOf (g.state e.source).id, e.label.label, n.numberOf (g.state e.target).id⟩, n) := by
  unfold numberEdge
  rw [run_stateM_bind, Numbering.run_number_of_mem hsource, run_stateM_bind,
    Numbering.run_number_of_mem htarget]
  rfl

theorem mem_edges {e : Edge} (he : e ∈ g.edges s) :
    e.source ∈ g.breadthFirst s ∧ (e.label, e.target) ∈ (g.state e.source).edges := by
  obtain ⟨r, hr, he⟩ := List.mem_flatMap.1 he
  obtain ⟨d, hd, rfl⟩ := List.mem_map.1 he
  exact ⟨hr, hd⟩

/-! ## The numbers of a traversal -/

/-- The numbering after a traversal. -/
def numberingBelow (g : Graph) (s : Ref) : Numbering :=
  ⟨1, g.idsBelow s⟩

/-- The start has its number before the traversal begins, and keeps it. -/
theorem run_numberStates_breadthFirst (g : Graph) (s : Ref) :
    (g.numberStates (g.breadthFirst s)).run ⟨1, [(g.state s).id]⟩ =
      ((g.breadthFirst s).map (g.numbered (g.numberingBelow s)), g.numberingBelow s) := by
  obtain ⟨rest, hrest⟩ := g.breadthFirst_eq_cons s
  have hids : [(g.state s).id] ++ rest.map (fun r => (g.state r).id) = g.idsBelow s := by
    rw [idsBelow, hrest]
    rfl
  have hrun := run_numberStates (g := g) 1 rest (hids ▸ g.nodup_idsBelow s)
  have hstart : g.numbered (g.numberingBelow s) s =
      (Numbering.numberOf ⟨1, [(g.state s).id]⟩ (g.state s).id, (g.state s).isFinal) := by
    rw [numbered, numberingBelow, ← hids, Numbering.numberOf_append List.mem_cons_self]
  rw [hrest, run_numberStates_cons g s rest (Numbering.run_number_of_mem List.mem_cons_self), hrun,
    hids, List.map_cons, hstart]
  rfl

/-- After the traversal both ids of an edge have their numbers. -/
theorem run_mapM_numberEdge (g : Graph) (s : Ref) :
    ((g.edges s).mapM g.numberEdge).run (g.numberingBelow s) =
      ((g.idsBelow s).flatMap ((g.shape s).transitionsFrom (g.idsBelow s)), g.numberingBelow s) := by
  have hrun := run_mapM_of_run_eq (f := g.numberEdge) (s := g.numberingBelow s) fun e he => by
    obtain ⟨hsource, hedge⟩ := mem_edges he
    have htarget : e.target ∈ (g.state e.source).targets :=
      State.map_snd_edges _ ▸ List.mem_map.2 ⟨_, hedge, rfl⟩
    exact run_numberEdge (n := g.numberingBelow s) (mem_idsBelow.2 ⟨_, hsource, rfl⟩)
      (id_mem_idsBelow hsource htarget)
  rw [hrun, edges, List.map_flatMap]
  congr 1
  conv_rhs => rw [idsBelow, List.flatMap_map]
  refine List.flatMap_congr fun r hr => ?_
  rw [edgesFrom, List.map_map, Shape.transitionsFrom, edges_shape hr, List.map_map]
  rfl

theorem eraseDups_of_nodup {l : List Nat} (h : l.Nodup) : l.eraseDups = l := by
  induction l with
  | nil => rfl
  | cons x l ih =>
    rw [List.nodup_cons] at h
    have hfilter : l.filter (fun y => !y == x) = l := by
      refine List.filter_eq_self.2 fun y hy => ?_
      have hne : y ≠ x := fun heq => h.1 (heq ▸ hy)
      simpa using hne
    rw [List.eraseDups_cons, hfilter, ih h.2]

/-- The numbers of states are consecutive, and the first one is mentioned twice. -/
theorem mergeSort_numbers (first n : Nat) :
    (first :: List.range' first (n + 1)).eraseDups.mergeSort = List.range' first (n + 1) := by
  have hfilter : (List.range' first (n + 1)).filter (fun y => !y == first) =
      List.range' (first + 1) n := by
    rw [List.range'_succ, List.filter_cons_of_neg (by simp)]
    refine List.filter_eq_self.2 fun y hy => ?_
    have := List.mem_range'_1.1 hy
    simp
    omega
  rw [List.eraseDups_cons, hfilter, eraseDups_of_nodup (List.nodup_range' 1), ← List.range'_succ]
  exact List.mergeSort_eq_self (· ≤ ·) List.pairwise_le_range'

theorem map_numberIn_self {ν : Type} [DecidableEq ν] {order : List ν} (h : order.Nodup) :
    order.map (Shape.numberIn order) = List.range' 1 order.length := by
  refine List.ext_getElem (by simp) fun i hi _ => ?_
  rw [List.getElem_map, Shape.numberIn, h.idxOf_getElem, List.getElem_range']
  omega

theorem map_fst_numbered (g : Graph) (s : Ref) :
    ((g.breadthFirst s).map (g.numbered (g.numberingBelow s))).map (·.1) =
      List.range' 1 (g.idsBelow s).length := by
  rw [← map_numberIn_self (g.nodup_idsBelow s), List.map_map]
  conv_rhs => rw [idsBelow, List.map_map]
  rfl

theorem map_fst_filter_numbered (g : Graph) (s : Ref) :
    (((g.breadthFirst s).map (g.numbered (g.numberingBelow s))).filter (·.2)).map (·.1) =
      ((g.idsBelow s).filter (g.shape s).isFinal).map (Shape.numberIn (g.idsBelow s)) := by
  have hfinal : (g.breadthFirst s).filter ((g.shape s).isFinal ∘ fun r => (g.state r).id) =
      (g.breadthFirst s).filter fun r => (g.state r).isFinal :=
    List.filter_congr fun r hr => isFinal_shape hr
  conv_rhs => rw [idsBelow, List.filter_map, hfinal, List.map_map]
  rw [List.filter_map, List.map_map]
  rfl

/-- A listing is that of the shape that the traversal sees. -/
theorem listing_eq (g : Graph) (s : Ref) :
    g.listing s = (g.shape s).listing (g.idsBelow s) := by
  have hfirst : (Numbering.number (g.state s).id).run { first := 1 } =
      (1, ⟨1, [(g.state s).id]⟩) := rfl
  have hlength : ∃ n, (g.idsBelow s).length = n + 1 := by
    obtain ⟨rest, hrest⟩ := g.idsBelow_eq_cons s
    exact ⟨rest.length, by rw [hrest, List.length_cons]⟩
  have hstates : (1 :: List.range' 1 (g.idsBelow s).length).eraseDups.mergeSort =
      List.range' 1 (g.idsBelow s).length := by
    obtain ⟨n, hn⟩ := hlength
    rw [hn, mergeSort_numbers]
  have hstart : Shape.numberIn (g.idsBelow s) (g.shape s).start = 1 := by
    rw [Shape.numberIn, (g.order_shape s).idxOf_start]
  unfold listing Shape.listing
  simp only [run_stateM_bind, hfirst, run_numberStates_breadthFirst, run_mapM_numberEdge,
    map_fst_numbered, map_fst_filter_numbered, hstates, hstart]
  rfl

/-- Every letter below the start is a text. -/
def HasTextLabels (g : Graph) (s : Ref) : Prop :=
  ∀ r, g.Reaches s r → ∀ e ∈ (g.state r).edges, ∃ content, e.1 = .text content

theorem HasTextLabels.shape (h : g.HasTextLabels s) : (g.shape s).HasTextLabels := by
  intro i hi e he
  obtain ⟨r, hr, rfl⟩ := mem_idsBelow.1 (reaches_shape.1 hi)
  rw [edges_shape hr] at he
  obtain ⟨d, hd, rfl⟩ := List.mem_map.1 he
  exact h r (reaches_of_mem_breadthFirst hr) d hd

theorem exists_isIso_shape_iff {g' : Graph} {s' : Ref} (hd : g.DistinctIds s)
    (hd' : g'.DistinctIds s') :
    (∃ f, (g.shape s).IsIso f (g'.shape s')) ↔ ∃ f, g.IsIso s f g' s' := by
  constructor
  · rintro ⟨f, hf⟩
    obtain ⟨e, he, -⟩ := (isIso_shape hd').exists_symm
    exact ⟨_, isIso_below_iff.1 (((isIso_shape hd).comp hf).comp he)⟩
  · rintro ⟨f, hf⟩
    obtain ⟨e, he, -⟩ := (isIso_shape hd).exists_symm
    exact ⟨_, (he.comp (isIso_below_iff.2 hf)).comp (isIso_shape hd')⟩

/-- The listing is a canonical form of what lies below a state. -/
theorem listing_eq_iff {g' : Graph} {s' : Ref} (hd : g.DistinctIds s) (hd' : g'.DistinctIds s')
    (htext : g.HasTextLabels s) (htext' : g'.HasTextLabels s') :
    g.listing s = g'.listing s' ↔ ∃ f, g.IsIso s f g' s' := by
  rw [listing_eq, listing_eq, ← exists_isIso_shape_iff hd hd']
  exact Shape.listing_eq_iff (g.order_shape s) (g'.order_shape s') htext.shape htext'.shape

end Graph

/-! ## Documents -/

namespace Listing

theorem numberDocument_injective : Function.Injective numberDocument := by
  intro m n h
  have hdigits := congrArg String.toList (Text.Document.text.inj h)
  rw [Nat.toString_eq_ofList_toDigits, Nat.toString_eq_ofList_toDigits, String.toList_ofList,
    String.toList_ofList] at hdigits
  rw [← Nat.ofDigitChars_ten_toDigits (n := m), hdigits, Nat.ofDigitChars_ten_toDigits]

theorem Transition.document_injective : Function.Injective Transition.document := by
  rintro ⟨source, label, target⟩ ⟨source', label', target'⟩ h
  simp only [document, Text.Document.list.injEq, List.cons.injEq, Text.Document.text.injEq,
    and_true] at h
  rw [numberDocument_injective h.1, h.2.1, numberDocument_injective h.2.2]

/-- Nothing of a listing is lost in its document. -/
theorem document_injective : Function.Injective document := by
  rintro ⟨states, letters, transitions, start, finals⟩ ⟨_, _, _, _, _⟩ h
  simp only [document, Text.Document.record.injEq, List.cons.injEq, Prod.mk.injEq,
    Text.Document.list.injEq, true_and, and_true] at h
  obtain ⟨hstates, hletters, htransitions, hstart, hfinals⟩ := h
  have htext : Function.Injective Text.Document.text := fun _ _ h => Text.Document.text.inj h
  rw [List.map_injective_iff.2 numberDocument_injective hstates,
    List.map_injective_iff.2 htext hletters,
    List.map_injective_iff.2 Transition.document_injective htransitions,
    numberDocument_injective hstart, List.map_injective_iff.2 numberDocument_injective hfinals]

end Listing

namespace Automaton

variable {g g' : Graph} {a b : Automaton}

/-- The document of an automaton is a canonical form of its graph: where ids tell states apart and
letters are texts, two automata have one document exactly when the states below their starts
correspond one to one, with finality and all edges in their order. Neither the ids nor the cursors
matter. Automata with one document accept the same words. -/
theorem listing_canonical (hd : g.DistinctIds a.start) (hd' : g'.DistinctIds b.start)
    (htext : g.HasTextLabels a.start) (htext' : g'.HasTextLabels b.start) :
    ((g.listing a.start).document = (g'.listing b.start).document ↔
        ∃ f, g.IsIso a.start f g' b.start) ∧
      ((g.listing a.start).document = (g'.listing b.start).document →
        ∀ word, (a.run g word).2 = .ok true ↔ (b.run g' word).2 = .ok true) := by
  have hiff : (g.listing a.start).document = (g'.listing b.start).document ↔
      ∃ f, g.IsIso a.start f g' b.start := by
    rw [Listing.document_injective.eq_iff, Graph.listing_eq_iff hd hd' htext htext']
  refine ⟨hiff, fun hdocument word => ?_⟩
  obtain ⟨f, hf⟩ := hiff.1 hdocument
  rw [run_eq_ok_true_iff hd, run_eq_ok_true_iff hd', hf.accepts_iff]

end Automaton

/-- The loop with its states in the other order and under other ids. -/
def Graph.turnedLoop : Graph where
  states := #[{ id := -2, isFinal := true, onEpsilon := [⟨0⟩, ⟨1⟩] },
    { id := 7, onSymbol := { entries := [(.text "a", ⟨0⟩)], letters := by decide } }]
  closed := by decide

/-- The loop and the turned one have one document, wherever their cursors are. -/
theorem Automaton.listing_canonical_turnedLoop :
    let a : Automaton := ⟨⟨0⟩, ⟨1⟩, ⟨0⟩, [⟨1⟩]⟩
    let b : Automaton := ⟨⟨1⟩, ⟨0⟩, ⟨0⟩, [⟨1⟩]⟩
    Graph.loop.DistinctIds a.start ∧ Graph.turnedLoop.DistinctIds b.start ∧
      Graph.loop.HasTextLabels a.start ∧ Graph.turnedLoop.HasTextLabels b.start ∧
      (Graph.loop.listing a.start).document = (Graph.turnedLoop.listing b.start).document ∧
      ∀ word, (a.run Graph.loop word).2 = .ok true ↔ (b.run Graph.turnedLoop word).2 = .ok true := by
  intro a b
  have hmem : ∀ {r}, Graph.loop.Reaches a.start r → r ∈ Graph.loop.refs := fun hr =>
    Graph.mem_refs.2 (hr.mem (by decide))
  have hd : Graph.loop.DistinctIds a.start := .of_nodup (by decide) (by decide)
  have hd' : Graph.turnedLoop.DistinctIds b.start := .of_nodup (by decide) (by decide)
  have htexts : ∀ g : Graph, (∀ r ∈ g.refs, ∀ e ∈ (g.state r).edges, e.1 = .text "a" ∨ e.1 = .text "") →
      ∀ {s}, s ∈ g → g.HasTextLabels s := by
    intro g hg s hs r hr e he
    exact (hg r (Graph.mem_refs.2 (hr.mem hs)) e he).elim (⟨"a", ·⟩) (⟨"", ·⟩)
  have htext : Graph.loop.HasTextLabels a.start := htexts _ (by decide) (by decide)
  have htext' : Graph.turnedLoop.HasTextLabels b.start := htexts _ (by decide) (by decide)
  -- the states change places
  have hfinal : ∀ r ∈ Graph.loop.refs,
      (Graph.turnedLoop.state ⟨1 - r.index⟩).isFinal = (Graph.loop.state r).isFinal := by decide
  have hedges : ∀ r ∈ Graph.loop.refs, (Graph.turnedLoop.state ⟨1 - r.index⟩).edges =
      (Graph.loop.state r).edges.map fun e => (e.1, ⟨1 - e.2.index⟩) := by decide
  have hinj : ∀ r ∈ Graph.loop.refs, ∀ t ∈ Graph.loop.refs,
      (⟨1 - r.index⟩ : Ref) = ⟨1 - t.index⟩ → r = t := by decide
  have hrenames : Graph.loop.Renames a.start (fun r => ⟨1 - r.index⟩) Graph.turnedLoop :=
    ⟨fun hr => hfinal _ (hmem hr), fun hr => hedges _ (hmem hr)⟩
  have hiso := hrenames.isIso fun r t hr ht => hinj r (hmem hr) t (hmem ht)
  obtain ⟨hiff, hwords⟩ := listing_canonical (a := a) (b := b) hd hd' htext htext'
  have hdocument := hiff.2 ⟨_, hiso⟩
  exact ⟨hd, hd', htext, htext', hdocument, hwords hdocument⟩

end EpsilonNfa
