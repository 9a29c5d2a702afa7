import EpsilonNfa.Proofs.DrawingLines

/-!
# What drawings show

A drawing shows the states that the traversal meets, whatever the labels are, and the text of the
edges (`Automaton.drawing_eq_iff`). Where no label goes on beyond its line that text shows the edges
as well, and with them the whole graph (`Automaton.drawing_faithful`). A label with quotes and ends
of lines can make the drawings of two different graphs one text (`Automaton.drawing_mimicry`).
-/

namespace EpsilonNfa

variable {g g' : Graph} {s s' r q : Ref}

/-- Members that agree place by place give one list. -/
theorem map_eq_map_of_forall₂ {α β γ : Type} {f : α → γ} {f' : β → γ} {l : List α} {l' : List β}
    (h : List.Forall₂ (fun x y => f x = f' y) l l') : l.map f = l'.map f' := by
  rwa [← List.forall₂_eq_eq_eq, List.forall₂_map_left_iff, List.forall₂_map_right_iff]

/-! ## Listings from their parts -/

/-- Shapes with the same nodes in one order have one listing if they have the same start, final
nodes and transitions. -/
theorem Shape.listing_congr {ν : Type} [DecidableEq ν] {S T : Shape ν} {order : List ν}
    (hstart : S.start = T.start) (hfinal : ∀ x ∈ order, S.isFinal x = T.isFinal x)
    (htransitions : (S.listing order).transitions = (T.listing order).transitions) :
    S.listing order = T.listing order := by
  have hflat : order.flatMap (S.transitionsFrom order) = order.flatMap (T.transitionsFrom order) :=
    htransitions
  unfold Shape.listing
  rw [hflat, hstart, List.filter_congr hfinal]

namespace Graph

theorem breadthFirst_eq_map (g : Graph) (s : Ref) :
    g.breadthFirst s = (g.idsBelow s).map (g.firstWithId s) := by
  rw [idsBelow, List.map_map]
  refine (List.map_id _).symm.trans (List.map_congr_left fun r hr => ?_)
  exact (firstWithId_of_mem hr).symm

/-- No label below the start goes on beyond its line. -/
def KeepsLines (g : Graph) (s : Ref) : Prop :=
  ∀ r, g.Reaches s r → ∀ e ∈ (g.state r).edges, Automaton.KeepsLine e.1.label

theorem KeepsLines.of_refs (hs : s ∈ g)
    (h : ∀ r ∈ g.refs, ∀ e ∈ (g.state r).edges, e.1.label.length < 23) : g.KeepsLines s :=
  fun r hr e he => Automaton.keepsLine_of_length_lt (h r (mem_refs.2 (hr.mem hs)) e he)

theorem KeepsLines.transitions (h : g.KeepsLines s) :
    ∀ t ∈ (g.listing s).transitions, Automaton.KeepsLine t.label := by
  intro t ht
  rw [← map_edges_eq_transitions] at ht
  obtain ⟨e, he, rfl⟩ := List.mem_map.1 ht
  obtain ⟨hsource, hedge⟩ := mem_edges he
  exact h _ (reaches_of_mem_breadthFirst hsource) _ hedge

theorem one_le_of_mem_transitions (g : Graph) (s : Ref) :
    ∀ t ∈ (g.listing s).transitions, 1 ≤ t.source ∧ 1 ≤ t.target := by
  intro t ht
  have hwell := g.wellFormed_listing s
  have hends := hwell.endpoints t ht
  rw [hwell.states_eq, List.mem_range'_1, List.mem_range'_1] at hends
  exact ⟨hends.1.1, hends.2.1⟩

end Graph

namespace Automaton

variable {a b : Automaton}

/-! ## States and text of edges -/

theorem toList_drawing (g : Graph) (a : Automaton) :
    (a.drawing g).toList = "digraph G\x7b\n".toList ++
      ((g.breadthFirst a.start).flatMap
          (fun r => (a.stateLine g (g.placeBelow a.start r - 1) r).toList) ++
        edgeText (g.listing a.start).transitions) := by
  rw [drawing_eq]
  simp [edgeText, List.flatMap_map]

/-- The states that two traversals meet are drawn alike, place by place. -/
def StatesAlike (g : Graph) (a : Automaton) (g' : Graph) (b : Automaton) : Prop :=
  List.Forall₂ (fun r r' => DrawnAlike g a r g' b r') (g.breadthFirst a.start)
    (g'.breadthFirst b.start)

namespace StatesAlike

theorem idsBelow_eq (h : StatesAlike g a g' b) : g'.idsBelow b.start = g.idsBelow a.start :=
  (map_eq_map_of_forall₂ (h.imp fun _ _ hr => hr.id_eq.symm)).symm

/-- The states are met in the same order, under their ids. -/
theorem breadthFirst_eq (h : StatesAlike g a g' b) :
    g'.breadthFirst b.start =
      (g.breadthFirst a.start).map fun r => g'.firstWithId b.start (g.state r).id := by
  rw [g'.breadthFirst_eq_map, h.idsBelow_eq, Graph.idsBelow, List.map_map]
  rfl

theorem drawnAlike (h : StatesAlike g a g' b) (hr : r ∈ g.breadthFirst a.start) :
    DrawnAlike g a r g' b (g'.firstWithId b.start (g.state r).id) := by
  have hmap := h
  rw [StatesAlike, h.breadthFirst_eq, List.forall₂_map_right_iff, List.forall₂_same] at hmap
  exact hmap r hr

end StatesAlike

theorem stateLine_congr {k : Nat} {r' : Ref} (h : DrawnAlike g a r g' b r') :
    b.stateLine g' k r' = a.stateLine g k r := by
  have hcursor := h.atCursor_iff
  unfold AtCursor at hcursor
  rw [h.id_eq] at hcursor
  unfold stateLine
  simp only [h.isFinal_eq, h.id_eq, hcursor]

/-- A drawing shows which states are met, one after the other, and the text of the edges. -/
theorem drawing_eq_iff : a.drawing g = b.drawing g' ↔ StatesAlike g a g' b ∧
    edgeText (g.listing a.start).transitions = edgeText (g'.listing b.start).transitions := by
  rw [← String.toList_inj, toList_drawing, toList_drawing, List.append_cancel_left_eq]
  constructor
  · exact stateLines_inj
  · intro h
    obtain ⟨hstates, hedges⟩ := h
    have hlines : List.Forall₂
        (fun r r' => (a.stateLine g (g.placeBelow a.start r - 1) r).toList =
          (b.stateLine g' (g'.placeBelow b.start r' - 1) r').toList)
        (g.breadthFirst a.start) (g'.breadthFirst b.start) := by
      refine hstates.imp fun r r' hr => ?_
      rw [Graph.placeBelow, Graph.placeBelow, hstates.idsBelow_eq, hr.id_eq, stateLine_congr hr]
    rw [hedges, List.flatMap_def, List.flatMap_def, map_eq_map_of_forall₂ hlines]

/-! ## Whole graphs -/

namespace StatesAlike

theorem bijOn (h : StatesAlike g a g' b) (hd : g.DistinctIds a.start)
    (hd' : g'.DistinctIds b.start) :
    Set.BijOn (fun r => g'.firstWithId b.start (g.state r).id) {r | g.Reaches a.start r}
      {q | g'.Reaches b.start q} := by
  refine ⟨fun r _ => g'.reaches_firstWithId b.start _, fun r hr t ht heq => ?_, fun q hq => ?_⟩
  · have hid := congrArg (fun q => (g'.state q).id) heq
    simp only [(h.drawnAlike ((Graph.mem_breadthFirst hd).2 hr)).id_eq,
      (h.drawnAlike ((Graph.mem_breadthFirst hd).2 ht)).id_eq] at hid
    exact hd r t hr ht hid
  · have hmem : q ∈ g'.breadthFirst b.start := (Graph.mem_breadthFirst hd').2 hq
    rw [h.breadthFirst_eq, List.mem_map] at hmem
    obtain ⟨r, hr, heq⟩ := hmem
    exact ⟨r, Graph.reaches_of_mem_breadthFirst hr, heq⟩

theorem firstWithId_start (h : StatesAlike g a g' b) :
    g'.firstWithId b.start (g.state a.start).id = b.start := by
  obtain ⟨rest, hrest⟩ := g.breadthFirst_eq_cons a.start
  obtain ⟨rest', hrest'⟩ := g'.breadthFirst_eq_cons b.start
  have heq := h.breadthFirst_eq
  rw [hrest, hrest', List.map_cons, List.cons.injEq] at heq
  exact heq.1.symm

theorem listing_eq (h : StatesAlike g a g' b)
    (htransitions : (g.listing a.start).transitions = (g'.listing b.start).transitions) :
    g.listing a.start = g'.listing b.start := by
  rw [Graph.listing_eq, Graph.listing_eq, h.idsBelow_eq] at htransitions ⊢
  refine Shape.listing_congr ?_ (fun i hi => ?_) htransitions
  · have hstart := (h.drawnAlike (r := a.start) ?_).id_eq
    · rw [h.firstWithId_start] at hstart
      exact hstart.symm
    · obtain ⟨rest, hrest⟩ := g.breadthFirst_eq_cons a.start
      rw [hrest]
      exact List.mem_cons_self
  · obtain ⟨r, hr, rfl⟩ := Graph.mem_idsBelow.1 hi
    rw [Graph.isFinal_shape hr]
    exact (h.drawnAlike hr).isFinal_eq.symm

end StatesAlike

end Automaton

namespace Graph.IsIso

variable {e f : Ref → Ref}

theorem breadthFirst_eq_map (h : g.IsIso s f g' s') (hd : g.DistinctIds s)
    (hd' : g'.DistinctIds s') : g'.breadthFirst s' = (g.breadthFirst s).map f :=
  (order_below hd').unique ((isIso_below_iff.2 h).order_map (order_below hd))

theorem congr (h : g.IsIso s e g' s') (heq : ∀ r, g.Reaches s r → e r = f r) :
    g.IsIso s f g' s' where
  renames :=
    { isFinal_eq := fun hr => heq _ hr ▸ h.renames.isFinal_eq hr
      edges_eq := fun {r} hr => by
        rw [← heq r hr, h.renames.edges_eq hr]
        refine List.map_congr_left fun d hd => ?_
        have hedge : d.2 ∈ (g.state r).targets :=
          State.map_snd_edges _ ▸ List.mem_map.2 ⟨d, hd, rfl⟩
        rw [heq _ (hr.step hedge)] }
  root := (heq s .refl).symm.trans h.root
  bijOn := h.bijOn.congr heq

end Graph.IsIso

namespace Automaton

variable {a b : Automaton}

/-- A drawing tells the states of an automaton: where ids tell states apart and letters are texts,
the states below the starts of two automata with one drawing correspond one to one, the starts to
each other, and corresponding ones have the same id and finality and are both at the cursor or both
not. Where no label goes on beyond its line, all edges correspond in their order too. -/
theorem drawing_faithful (hd : g.DistinctIds a.start) (hd' : g'.DistinctIds b.start)
    (htext : g.HasTextLabels a.start) (htext' : g'.HasTextLabels b.start)
    (h : a.drawing g = b.drawing g') :
    ∃ f, f a.start = b.start ∧
      Set.BijOn f {r | g.Reaches a.start r} {q | g'.Reaches b.start q} ∧
      (∀ r, g.Reaches a.start r → DrawnAlike g a r g' b (f r)) ∧
      (g.KeepsLines a.start → g'.KeepsLines b.start → g.IsIso a.start f g' b.start) := by
  obtain ⟨hstates, hedges⟩ := drawing_eq_iff.1 h
  refine ⟨fun r => g'.firstWithId b.start (g.state r).id, hstates.firstWithId_start,
    hstates.bijOn hd hd', fun r hr => hstates.drawnAlike ((Graph.mem_breadthFirst hd).2 hr),
    fun hkeeps hkeeps' => ?_⟩
  have htransitions : (g.listing a.start).transitions = (g'.listing b.start).transitions := by
    refine edgeText_inj hkeeps.transitions hkeeps'.transitions (fun t ht => ?_) hedges
    exact (List.mem_append.1 ht).elim (g.one_le_of_mem_transitions _ t)
      (g'.one_le_of_mem_transitions _ t)
  obtain ⟨e, he⟩ :=
    (Graph.listing_eq_iff hd hd' htext htext').1 (hstates.listing_eq htransitions)
  -- both correspondences are that of the traversals
  have hmap := (he.breadthFirst_eq_map hd hd').symm.trans hstates.breadthFirst_eq
  exact he.congr fun r hr => List.map_inj_left.1 hmap r ((Graph.mem_breadthFirst hd).2 hr)

end Automaton

/-! ## Drawings of small graphs -/

namespace Graph

theorem HasTextLabels.of_refs (hs : s ∈ g)
    (h : ∀ r ∈ g.refs, ∀ e ∈ (g.state r).edges, e.1 = .text e.1.label) : g.HasTextLabels s :=
  fun r hr e he => ⟨_, h r (mem_refs.2 (hr.mem hs)) e he⟩

/-- Two states with an edge on each of two letters. -/
def twoLabels : Graph where
  states := #[{ id := 0, onSymbol :=
      { entries := [(.text "x", ⟨1⟩), (.text "y", ⟨1⟩)], letters := by decide,
        distinct := by decide } },
    { id := 1, isFinal := true }]
  closed := by decide

theorem breadthFirst_twoLabels : twoLabels.breadthFirst ⟨0⟩ = [⟨0⟩, ⟨1⟩] := by
  have hvisits : twoLabels.Visits [] [⟨0⟩] [⟨0⟩, ⟨1⟩] :=
    .visit (by decide) (.visit (by decide) (.skip (by decide) (.done _)))
  exact (twoLabels.visits_breadthFirst ⟨0⟩).unique hvisits

theorem transitions_twoLabels :
    (twoLabels.listing ⟨0⟩).transitions = [⟨1, "x", 2⟩, ⟨1, "y", 2⟩] := by
  simp only [transitions_listing, placeBelow, idsBelow, breadthFirst_twoLabels]
  rfl

/-- The same states in the other order. -/
def turnedLabels : Graph where
  states := #[{ id := 1, isFinal := true },
    { id := 0, onSymbol :=
      { entries := [(.text "x", ⟨0⟩), (.text "y", ⟨0⟩)], letters := by decide,
        distinct := by decide } }]
  closed := by decide

end Graph

namespace Automaton

/-- Two graphs with their states in different orders have one drawing, and so they correspond. -/
theorem drawing_faithful_turnedLabels :
    let a : Automaton := ⟨⟨0⟩, ⟨1⟩, ⟨0⟩, [⟨0⟩]⟩
    let b : Automaton := ⟨⟨1⟩, ⟨0⟩, ⟨0⟩, [⟨1⟩, ⟨1⟩]⟩
    Graph.twoLabels.DistinctIds a.start ∧ Graph.turnedLabels.DistinctIds b.start ∧
      Graph.twoLabels.HasTextLabels a.start ∧ Graph.turnedLabels.HasTextLabels b.start ∧
      a.drawing Graph.twoLabels = b.drawing Graph.turnedLabels ∧
      Graph.twoLabels.KeepsLines a.start ∧ Graph.turnedLabels.KeepsLines b.start ∧
      ∃ f, Graph.twoLabels.IsIso a.start f Graph.turnedLabels b.start ∧ f ⟨0⟩ = ⟨1⟩ := by
  intro a b
  have hd : Graph.twoLabels.DistinctIds a.start := .of_nodup (by decide) (by decide)
  have hd' : Graph.turnedLabels.DistinctIds b.start := .of_nodup (by decide) (by decide)
  have htext : Graph.twoLabels.HasTextLabels a.start := .of_refs (by decide) (by decide)
  have htext' : Graph.turnedLabels.HasTextLabels b.start := .of_refs (by decide) (by decide)
  have hkeeps : Graph.twoLabels.KeepsLines a.start := .of_refs (by decide) (by decide)
  have hkeeps' : Graph.turnedLabels.KeepsLines b.start := .of_refs (by decide) (by decide)
  have hvisits : Graph.turnedLabels.Visits [] [⟨1⟩] [⟨1⟩, ⟨0⟩] :=
    .visit (by decide) (.visit (by decide) (.skip (by decide) (.done _)))
  have horder := (Graph.turnedLabels.visits_breadthFirst ⟨1⟩).unique hvisits
  have htransitions : (Graph.turnedLabels.listing ⟨1⟩).transitions =
      [⟨1, "x", 2⟩, ⟨1, "y", 2⟩] := by
    simp only [Graph.transitions_listing, Graph.placeBelow, Graph.idsBelow, horder]
    rfl
  have hdrawing : a.drawing Graph.twoLabels = b.drawing Graph.turnedLabels := by
    refine drawing_eq_iff.2 ⟨?_, ?_⟩
    · rw [StatesAlike, Graph.breadthFirst_twoLabels, horder]
      exact .cons ⟨rfl, rfl, by decide⟩ (.cons ⟨rfl, rfl, by decide⟩ .nil)
    · rw [Graph.transitions_twoLabels, htransitions]
  obtain ⟨f, hstart, -, -, hiso⟩ := drawing_faithful hd hd' htext htext' hdrawing
  exact ⟨hd, hd', htext, htext', hdrawing, hkeeps, hkeeps', f, hiso hkeeps hkeeps', hstart⟩

end Automaton

/-- Two states with one edge, on a letter that is drawn like two edges. -/
def Graph.longLabel : Graph where
  states := #[{ id := 0, onSymbol :=
      { entries := [(.text "x\" ]\n    0 -> 1 [ label = \"y", ⟨1⟩)], letters := by decide } },
    { id := 1, isFinal := true }]
  closed := by decide

/-- Two edges and one can be drawn as one text, though all ids differ and all letters are texts. -/
theorem Automaton.drawing_mimicry :
    let a : Automaton := ⟨⟨0⟩, ⟨1⟩, ⟨0⟩, [⟨0⟩]⟩
    Graph.twoLabels.DistinctIds a.start ∧ Graph.longLabel.DistinctIds a.start ∧
      Graph.twoLabels.HasTextLabels a.start ∧ Graph.longLabel.HasTextLabels a.start ∧
      a.drawing Graph.twoLabels = a.drawing Graph.longLabel ∧
      ∀ f, ¬ Graph.twoLabels.IsIso a.start f Graph.longLabel a.start := by
  intro a
  have hvisits : Graph.longLabel.Visits [] [⟨0⟩] [⟨0⟩, ⟨1⟩] :=
    .visit (by decide) (.visit (by decide) (.done _))
  have horder := (Graph.longLabel.visits_breadthFirst ⟨0⟩).unique hvisits
  have htransitions : (Graph.longLabel.listing ⟨0⟩).transitions =
      [⟨1, "x\" ]\n    0 -> 1 [ label = \"y", 2⟩] := by
    simp only [Graph.transitions_listing, Graph.placeBelow, Graph.idsBelow, horder]
    rfl
  refine ⟨.of_nodup (by decide) (by decide), .of_nodup (by decide) (by decide),
    .of_refs (by decide) (by decide), .of_refs (by decide) (by decide),
    drawing_eq_iff.2 ⟨?_, ?_⟩, fun f hf => ?_⟩
  · rw [StatesAlike, Graph.breadthFirst_twoLabels, horder]
    exact .cons ⟨rfl, rfl, by decide⟩ (.cons ⟨rfl, rfl, by decide⟩ .nil)
  · rw [Graph.transitions_twoLabels, htransitions]
    simp only [edgeText_cons, lineStart_eq]
    rfl
  · -- the start has two edges in the one graph and one in the other
    have hlength := congrArg List.length (hf.renames.edges_eq .refl)
    rw [hf.root, List.length_map] at hlength
    exact absurd hlength (by decide)

end EpsilonNfa
