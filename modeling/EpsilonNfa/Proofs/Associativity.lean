import EpsilonNfa.Proofs.ConcatShape
import EpsilonNfa.Proofs.Listing

/-!
# Concatenation is associative

Three automata can be put behind each other in two ways. The one copies the first automaton twice
and the other the last one, with ids from other sources, and they add the two epsilon edges in
opposite orders. Yet both fail or neither does, and what they make are joins of the same three
shapes, which only the names of nodes tell apart. So listings do not see the difference, and the
stop is met at the same place of a traversal.
-/

namespace EpsilonNfa

variable {ν μ κ : Type} {S : Shape ν} {S' : Shape μ} {p : ν} {p' : μ}

namespace Automaton

/-- `a` followed by `b`, and the two by `c`. -/
def concatLeft (a b c : Automaton) : HeapM Automaton := do
  (← a.concat b).concat c

/-- `a` followed by `b` and `c`. -/
def concatRight (a b c : Automaton) : HeapM Automaton := do
  a.concat (← b.concat c)

variable {h h' l r : Heap} {g g' : Graph} {a b c d d' : Automaton}

/-! ## One shape, made twice -/

theorem Realizes.of_extends (hS : a.Realizes h.graph S p) (ha : a.Within h) (hh : h.Extends h') :
    a.Realizes h'.graph S p := by
  obtain ⟨f, hf, hstop⟩ := hS.isIso
  have hkept : (h.graph.below a.start).IsIso id (h'.graph.below a.start) :=
    Graph.isIso_below_iff.2 <| .of_state_eq fun r hr => hh.state_eq r (hr.mem ha.start)
  exact ⟨hS.distinctIds.of_state_eq ha.start hh.state_eq, ⟨_, hf.comp hkept, hstop⟩, hS.reaches⟩

/-- Nodes may have other names. -/
theorem Realizes.of_isIso {e : ν → μ} (hS : a.Realizes g S' (e p)) (he : S.IsIso e S')
    (hp : S.Reaches p) : a.Realizes g S p := by
  obtain ⟨f, hf, hstop⟩ := hS.isIso
  exact ⟨hS.distinctIds, ⟨_, he.comp hf, hstop⟩, hp⟩

/-- Automata of one shape are isomorphic, with the one stop at the image of the other. -/
theorem Realizes.exists_isIso (hS : d.Realizes g S p) (hS' : d'.Realizes g' S p) :
    ∃ e, (g.below d.start).IsIso e (g'.below d'.start) ∧ e d.stop = d'.stop := by
  obtain ⟨f, hf, hstop⟩ := hS.isIso
  obtain ⟨f', hf', hstop'⟩ := hS'.isIso
  obtain ⟨e, he, hef⟩ := hf.exists_of_isIso hf'
  exact ⟨e, he, by rw [← hstop, hef p hS.reaches, hstop']⟩

theorem Realizes.stop_mem (hS : d.Realizes g S p) : d.stop ∈ g.breadthFirst d.start :=
  (Graph.mem_breadthFirst hS.distinctIds).2 hS.reaches_stop

/-- The listings of automata of one shape are equal. -/
theorem Realizes.listing_eq (hS : d.Realizes g S p) (hS' : d'.Realizes g' S p) :
    g.listing d.start = g'.listing d'.start := by
  obtain ⟨e, he, -⟩ := hS.exists_isIso hS'
  obtain ⟨f, hf⟩ := (Graph.exists_isIso_shape_iff hS.distinctIds hS'.distinctIds).2
    ⟨e, Graph.isIso_below_iff.1 he⟩
  rw [Graph.listing_eq, Graph.listing_eq]
  exact (hf.listing_eq (g.order_shape _) (g'.order_shape _)).symm

/-- Traversals meet the stops of automata of one shape at the same place. -/
theorem Realizes.idxOf_stop_eq (hS : d.Realizes g S p) (hS' : d'.Realizes g' S p) :
    (g.breadthFirst d.start).idxOf d.stop = (g'.breadthFirst d'.start).idxOf d'.stop := by
  obtain ⟨e, he, hstop⟩ := hS.exists_isIso hS'
  have horder := Graph.order_below hS.distinctIds
  have hmap : g'.breadthFirst d'.start = (g.breadthFirst d.start).map e :=
    (Graph.order_below hS'.distinctIds).unique (he.order_map horder)
  have hnumber := he.numberIn_eq horder (horder.mem_iff.1 hS.stop_mem)
  rw [← hmap, hstop, Shape.numberIn, Shape.numberIn, Nat.add_left_cancel_iff] at hnumber
  exact hnumber.symm

/-! ## The two ways -/

theorem exists_concatLeft (ha : a.Within h) (hb : b.Within h) (hc : c.Within h)
    (hamet : a.StopMet h.graph) (hbmet : b.StopMet h.graph) (hcmet : c.StopMet h.graph) :
    ∃ d h', Returns (concatLeft a b c) h d h' ∧ d.Within h' ∧ d.Realizes h'.graph
      (((h.graph.shape a.start).join (h.graph.state a.stop).id (h.graph.shape b.start)).join
        (.inr (h.graph.state b.stop).id) (h.graph.shape c.start))
      (.inr (h.graph.state c.stop).id) := by
  obtain ⟨ab, h₁, hab, hgrows, habWithin, hrealizes⟩ :=
    exists_concat_of_hasShape ha hb hamet.hasShape hbmet.hasShape
  obtain ⟨d, h₂, hd, -, hdWithin, hdrealizes⟩ := exists_concat_of_hasShape habWithin
    (hc.of_extends hgrows) hrealizes.hasShape (hcmet.hasShape.of_extends hc hgrows)
  exact ⟨d, h₂, hab.bind hd, hdWithin, hdrealizes⟩

theorem exists_concatRight (ha : a.Within h) (hb : b.Within h) (hc : c.Within h)
    (hamet : a.StopMet h.graph) (hbmet : b.StopMet h.graph) (hcmet : c.StopMet h.graph) :
    ∃ d h', Returns (concatRight a b c) h d h' ∧ d.Within h' ∧ d.Realizes h'.graph
      ((h.graph.shape a.start).join (h.graph.state a.stop).id
        ((h.graph.shape b.start).join (h.graph.state b.stop).id (h.graph.shape c.start)))
      (.inr (.inr (h.graph.state c.stop).id)) := by
  obtain ⟨bc, h₁, hbc, hgrows, hbcWithin, hrealizes⟩ :=
    exists_concat_of_hasShape hb hc hbmet.hasShape hcmet.hasShape
  obtain ⟨d, h₂, hd, -, hdWithin, hdrealizes⟩ := exists_concat_of_hasShape
    (ha.of_extends hgrows) hbcWithin (hamet.hasShape.of_extends ha hgrows) hrealizes.hasShape
  exact ⟨d, h₂, hbc.bind hd, hdWithin, hdrealizes⟩

theorem concatLeft_fails (ha : a.Within h) (hb : b.Within h) (hc : c.Within h)
    (hmet : ¬ (a.StopMet h.graph ∧ b.StopMet h.graph ∧ c.StopMet h.graph)) :
    ∃ i h', Fails (concatLeft a b c) h (.notCopied i) h' := by
  by_cases habmet : a.StopMet h.graph ∧ b.StopMet h.graph
  · obtain ⟨ab, h₁, hab, hgrows, habWithin, -⟩ :=
      exists_concat_of_hasShape ha hb habmet.1.hasShape habmet.2.hasShape
    have hcmet : ¬ c.StopMet h₁.graph := fun hcmet =>
      hmet ⟨habmet.1, habmet.2, (stopMet_iff_of_extends hc hgrows).1 hcmet⟩
    obtain ⟨i, h', hfails⟩ :=
      concat_fails habWithin (hc.of_extends hgrows) fun hboth => hcmet hboth.2
    exact ⟨i, h', Fails.of_bind hab hfails⟩
  · obtain ⟨i, h', hfails⟩ := concat_fails ha hb habmet
    exact ⟨i, h', hfails.bind _⟩

theorem concatRight_fails (ha : a.Within h) (hb : b.Within h) (hc : c.Within h)
    (hmet : ¬ (a.StopMet h.graph ∧ b.StopMet h.graph ∧ c.StopMet h.graph)) :
    ∃ i h', Fails (concatRight a b c) h (.notCopied i) h' := by
  by_cases hbcmet : b.StopMet h.graph ∧ c.StopMet h.graph
  · obtain ⟨bc, h₁, hbc, hgrows, hbcWithin, -⟩ :=
      exists_concat_of_hasShape hb hc hbcmet.1.hasShape hbcmet.2.hasShape
    have hamet : ¬ a.StopMet h₁.graph := fun hamet =>
      hmet ⟨(stopMet_iff_of_extends ha hgrows).1 hamet, hbcmet⟩
    obtain ⟨i, h', hfails⟩ :=
      concat_fails (ha.of_extends hgrows) hbcWithin fun hboth => hamet hboth.1
    exact ⟨i, h', Fails.of_bind hbc hfails⟩
  · obtain ⟨i, h', hfails⟩ := concat_fails hb hc hbcmet
    exact ⟨i, h', hfails.bind _⟩

/-- Both ways make the same shape. -/
theorem exists_realizes_both (ha : a.Within h) (hb : b.Within h) (hc : c.Within h)
    (hl : h.Extends l) (hr : h.Extends r) (hamet : a.StopMet h.graph) (hbmet : b.StopMet h.graph)
    (hcmet : c.StopMet h.graph) :
    ∃ (ν : Type) (S : Shape ν) (p : ν) (d d' : Automaton) (l' r' : Heap),
      Returns (concatLeft a b c) l d l' ∧ Returns (concatRight a b c) r d' r' ∧
      d.Within l' ∧ d'.Within r' ∧ d.Realizes l'.graph S p ∧ d'.Realizes r'.graph S p := by
  obtain ⟨d, l', hleft, hd, hS⟩ := exists_concatLeft (ha.of_extends hl) (hb.of_extends hl)
    (hc.of_extends hl) ((stopMet_iff_of_extends ha hl).2 hamet)
    ((stopMet_iff_of_extends hb hl).2 hbmet) ((stopMet_iff_of_extends hc hl).2 hcmet)
  obtain ⟨d', r', hright, hd', hS'⟩ := exists_concatRight (ha.of_extends hr) (hb.of_extends hr)
    (hc.of_extends hr) ((stopMet_iff_of_extends ha hr).2 hamet)
    ((stopMet_iff_of_extends hb hr).2 hbmet) ((stopMet_iff_of_extends hc hr).2 hcmet)
  simp only [hl.shape_eq ha.start, hl.shape_eq hb.start, hl.shape_eq hc.start,
    hl.state_eq _ ha.stop, hl.state_eq _ hb.stop, hl.state_eq _ hc.stop] at hS
  simp only [hr.shape_eq ha.start, hr.shape_eq hb.start, hr.shape_eq hc.start,
    hr.state_eq _ ha.stop, hr.state_eq _ hb.stop, hr.state_eq _ hc.stop] at hS'
  have hS' := Realizes.of_isIso (e := Equiv.sumAssoc Int Int Int) hS'
    (Shape.isIso_join_assoc ..) hS.reaches
  exact ⟨_, _, _, d, d', l', r', hleft, hright, hd, hd', hS, hS'⟩

/-- Concatenation is associative up to the names of states, for any three automata: their ids may
collide, their sources may be any, and one automaton may occur several times. The two ways may start
on different heaps that hold the three, so one may come after the other. They fail with a state that
was not found or not at all, and both do or neither does: they return where each of the three has a
stop whose id its traversal meets. What they make has one document, now and later, and the
traversals meet the stops at the same place. -/
theorem concat_assoc (ha : a.Within h) (hb : b.Within h) (hc : c.Within h) (hl : h.Extends l)
    (hr : h.Extends r) :
    ((∃ e l', Fails (concatLeft a b c) l e l' ∧ e.isNotFound = true) ↔
        ∃ e r', Fails (concatRight a b c) r e r' ∧ e.isNotFound = true) ∧
      (∀ e l', Fails (concatLeft a b c) l e l' → e.isNotFound = true) ∧
      (∀ e r', Fails (concatRight a b c) r e r' → e.isNotFound = true) ∧
      ((∃ d l', Returns (concatLeft a b c) l d l') ↔
        a.StopMet h.graph ∧ b.StopMet h.graph ∧ c.StopMet h.graph) ∧
      ∀ d l' d' r', Returns (concatLeft a b c) l d l' → Returns (concatRight a b c) r d' r' →
        ∀ l'' r'', l'.Extends l'' → r'.Extends r'' →
          (l''.graph.listing d.start).document = (r''.graph.listing d'.start).document ∧
          d.stop ∈ l''.graph.breadthFirst d.start ∧ d'.stop ∈ r''.graph.breadthFirst d'.start ∧
          (l''.graph.breadthFirst d.start).idxOf d.stop =
            (r''.graph.breadthFirst d'.start).idxOf d'.stop := by
  by_cases hmet : a.StopMet h.graph ∧ b.StopMet h.graph ∧ c.StopMet h.graph
  · obtain ⟨ν, S, p, d, d', l', r', hleft, hright, hd, hd', hS, hS'⟩ :=
      exists_realizes_both ha hb hc hl hr hmet.1 hmet.2.1 hmet.2.2
    have hnleft : ∀ e l'', ¬ Fails (concatLeft a b c) l e l'' :=
      fun _ _ hf => hf.not_returns hleft
    have hnright : ∀ e r'', ¬ Fails (concatRight a b c) r e r'' :=
      fun _ _ hf => hf.not_returns hright
    refine ⟨⟨?_, ?_⟩, fun e l'' hf => absurd hf (hnleft e l''),
      fun e r'' hf => absurd hf (hnright e r''), iff_of_true ⟨d, l', hleft⟩ hmet, ?_⟩
    · rintro ⟨e, l'', hf, -⟩
      exact absurd hf (hnleft e l'')
    · rintro ⟨e, r'', hf, -⟩
      exact absurd hf (hnright e r'')
    · intro d₁ l₁ d₁' r₁ hleft₁ hright₁ l'' r'' hlater hlater'
      obtain ⟨rfl, rfl⟩ := hleft.unique hleft₁
      obtain ⟨rfl, rfl⟩ := hright.unique hright₁
      have hS := hS.of_extends hd hlater
      have hS' := hS'.of_extends hd' hlater'
      exact ⟨congrArg Listing.document (hS.listing_eq hS'), hS.stop_mem, hS'.stop_mem,
        hS.idxOf_stop_eq hS'⟩
  · obtain ⟨i, l', hleft⟩ := concatLeft_fails (ha.of_extends hl) (hb.of_extends hl)
      (hc.of_extends hl) (by
        rwa [stopMet_iff_of_extends ha hl, stopMet_iff_of_extends hb hl,
          stopMet_iff_of_extends hc hl])
    obtain ⟨j, r', hright⟩ := concatRight_fails (ha.of_extends hr) (hb.of_extends hr)
      (hc.of_extends hr) (by
        rwa [stopMet_iff_of_extends ha hr, stopMet_iff_of_extends hb hr,
          stopMet_iff_of_extends hc hr])
    refine ⟨⟨fun _ => ⟨_, r', hright, rfl⟩, fun _ => ⟨_, l', hleft, rfl⟩⟩, ?_, ?_,
      iff_of_false (fun ⟨d, l'', hreturns⟩ => hleft.not_returns hreturns) hmet, ?_⟩
    · intro e l'' hf
      rw [(hf.unique hleft).1]
      rfl
    · intro e r'' hf
      rw [(hf.unique hright).1]
      rfl
    · intro d l'' d' r'' hreturns
      exact absurd hreturns hleft.not_returns

end Automaton

/-- The automaton that stops at the second of the twins, put three times behind itself, with ids
that the copies draw again. -/
theorem Automaton.concat_assoc_twins :
    let h : Heap := { graph := .twins, nextIds := #[1] }
    let a : Automaton := .ofStates ⟨0⟩ ⟨2⟩ ⟨0⟩
    a.Within h ∧ h.Extends h ∧ ∃ d l' d' r', Returns (concatLeft a a a) h d l' ∧
      Returns (concatRight a a a) h d' r' ∧
      (l'.graph.listing d.start).document = (r'.graph.listing d'.start).document := by
  intro h a
  have ha : a.Within h := by decide
  have hh : h.Extends h := .refl h
  have hmet : a.StopMet h.graph := stopMet_twins
  obtain ⟨-, -, -, d, d', l', r', hleft, hright, -⟩ :=
    exists_realizes_both ha ha ha hh hh hmet hmet hmet
  obtain ⟨-, -, -, -, hboth⟩ := concat_assoc ha ha ha hh hh
  exact ⟨ha, hh, d, l', d', r', hleft, hright,
    (hboth d l' d' r' hleft hright l' r' (.refl l') (.refl r')).1⟩

end EpsilonNfa
