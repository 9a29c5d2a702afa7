import EpsilonNfa.Proofs.ConcatShape
import EpsilonNfa.Proofs.Simulation

/-!
# The language of a concatenation

The copies of the two operands lie apart, with different ids throughout (`Graph.Apart`), so after
the join a path leaves the first copy once and for good. What is accepted is said by
`Graph.Joined.accepts_iff` about the copies and is carried back to the operands along the two
isomorphisms. The ids tell states apart within each operand only: ids of one may occur in the
other, and so may states.
-/

namespace EpsilonNfa

namespace Graph

/-- Copies of what lies below `s` and below `s'` that share neither states nor ids. -/
structure Apart (g : Graph) (s s' : Ref) (f f' : Ref → Ref) (root root' : Ref) (g' : Graph) :
    Prop where
  first : g.IsIso s f g' root
  second : g.IsIso s' f' g' root'
  distinctIds_first : g'.DistinctIds root
  distinctIds_second : g'.DistinctIds root'
  id_ne : ∀ q t, g'.Reaches root q → g'.Reaches root' t → (g'.state q).id ≠ (g'.state t).id

namespace Apart

variable {g g' g'' : Graph} {s s' p q root root' : Ref} {f f' : Ref → Ref} {word : List Symbol}

theorem not_reaches (h : g.Apart s s' f f' root root' g') (hq : g'.Reaches root q) :
    ¬ g'.Reaches root' q :=
  fun hq' => h.id_ne q q hq hq' rfl

/-- After the join the ids still tell all states apart. -/
theorem distinctIds_joined (h : g.Apart s s' f f' root root' g') (hj : g'.Joined q root' g'') :
    g''.DistinctIds root :=
  hj.distinctIds h.distinctIds_first h.distinctIds_second h.id_ne

/-- What is accepted after the join, said about the graph that was copied. -/
theorem accepts_joined_iff (h : g.Apart s s' f f' root root' g') (hp : g.Reaches s p)
    (hj : g'.Joined (f p) root' g'') :
    g''.Accepts root word ↔
      (∃ u v, word = u ++ v ∧ g.Reads s u p ∧ g.Accepts s' v) ∨
      ∃ t, g.Reads s word t ∧ (g.state t).isFinal = true ∧ t ≠ p := by
  rw [hj.accepts_iff (h.not_reaches (h.first.reaches_iff.2 ⟨p, hp, rfl⟩))]
  simp only [h.first.reads_iff hp, h.second.accepts_iff]
  apply or_congr_right
  constructor
  · intro hother
    obtain ⟨q, hq, hfinal, hne⟩ := hother
    obtain ⟨t, ht, rfl⟩ := h.first.reaches_iff.1 hq.reaches
    rw [h.first.renames.isFinal_eq ht] at hfinal
    exact ⟨t, (h.first.reads_iff ht).1 hq, hfinal, fun heq => hne (heq ▸ rfl)⟩
  · intro hother
    obtain ⟨t, ht, hfinal, hne⟩ := hother
    rw [← h.first.renames.isFinal_eq ht.reaches] at hfinal
    refine ⟨f t, (h.first.reads_iff ht.reaches).2 ht, hfinal, fun heq => hne ?_⟩
    exact (h.first.apply_eq_iff ht.reaches hp).1 heq

end Apart

end Graph

variable {h : Heap} {a b : Automaton}

namespace Automaton

/-- `c` is made of copies of `a` and `b` that lie apart and are joined at the copy of the stop of
`a`. -/
structure Concatenated (h : Heap) (a b c : Automaton) (h' : Heap) (copies : Graph)
    (f f' : Ref → Ref) (bStart : Ref) : Prop where
  eq_ofStates : c = ofStates c.start (f' b.stop) a.ids
  start_mem : c.start ∈ h'.graph
  apart : h.graph.Apart a.start b.start f f' c.start bStart copies
  joined : copies.Joined (f a.stop) bStart h'.graph
  grows : h.Extends h'

/-- Where ids tell the states of an operand apart, they are the nodes of the shape that a traversal
sees. -/
theorem hasShape_below (hd : h.graph.DistinctIds a.start)
    (hstop : h.graph.Reaches a.start a.stop) :
    a.HasShape h.graph (h.graph.below a.start) a.stop :=
  ⟨_, Graph.isIso_shape hd, Graph.reaches_below.2 hstop, rfl⟩

theorem exists_concatenated (ha : a.Within h) (hb : b.Within h)
    (hda : h.graph.DistinctIds a.start) (hdb : h.graph.DistinctIds b.start)
    (hastop : h.graph.Reaches a.start a.stop) (hbstop : h.graph.Reaches b.start b.stop) :
    ∃ c h' copies f f' bStart, Returns (a.concat b) h c h' ∧
      Concatenated h a b c h' copies f f' bStart := by
  obtain ⟨root, root', f, f', h₂, g, hreturns, hpair, hjoined, hgrows⟩ :=
    exists_joinedPair ha hb (hasShape_below hda hastop) (hasShape_below hdb hbstop)
  have hapart : h.graph.Apart a.start b.start f f' root root' h₂.graph :=
    { first := Graph.isIso_below_iff.1 hpair.first
      second := Graph.isIso_below_iff.1 hpair.second
      distinctIds_first := hpair.distinctIds_first
      distinctIds_second := hpair.distinctIds_second
      id_ne := hpair.id_ne }
  have hstart : root ∈ g := hjoined.mem_iff.2 (hpair.first_new _ .refl).2
  exact ⟨_, _, h₂.graph, f, f', root', hreturns, rfl, hstart, hapart, hjoined, hgrows⟩

/-- A concatenation is always made. It is two copies that lie apart, joined at the copy of the stop
of the first. -/
theorem exists_concat (ha : a.Within h) (hb : b.Within h) (hda : h.graph.DistinctIds a.start)
    (hdb : h.graph.DistinctIds b.start) (hastop : h.graph.Reaches a.start a.stop)
    (hbstop : h.graph.Reaches b.start b.stop) :
    ∃ c h' apart f f' bStart, Returns (a.concat b) h c h' ∧
      h.graph.Apart a.start b.start f f' c.start bStart apart ∧
      apart.Joined (f a.stop) bStart h'.graph := by
  obtain ⟨c, h', apart, f, f', bStart, hconcat, hc⟩ :=
    exists_concatenated ha hb hda hdb hastop hbstop
  exact ⟨c, h', apart, f, f', bStart, hconcat, hc.apart, hc.joined⟩

/-- Where the stop is the one final state, a word is accepted when a path leads to the stop. -/
theorem run_eq_ok_true_iff_reads_stop {g : Graph} (hd : g.DistinctIds a.start)
    (hfinal : ∀ t, g.Reaches a.start t → ((g.state t).isFinal = true ↔ t = a.stop))
    {word : List Symbol} :
    (a.run g word).2 = .ok true ↔ g.Reads a.start word a.stop := by
  rw [run_eq_ok_true_iff hd]
  constructor
  · rintro ⟨t, ht, hfinalt⟩
    rwa [(hfinal t ht.reaches).1 hfinalt] at ht
  · exact fun ht => ⟨a.stop, ht, (hfinal a.stop ht.reaches).2 rfl⟩

/-- The language of a concatenation, whatever the ids of the operands are and wherever their source
stands. A word is accepted if it begins with a path of `a` to its stop and goes on with a word of
`b`, or if it leads in `a` to a final state other than the stop. Where the stop of `a` is its one
final state, what is accepted is a word of `a` followed by a word of `b`. -/
theorem concat_language (ha : a.Within h) (hb : b.Within h) (hda : h.graph.DistinctIds a.start)
    (hdb : h.graph.DistinctIds b.start) (hastop : h.graph.Reaches a.start a.stop)
    (hbstop : h.graph.Reaches b.start b.stop) :
    ∃ c h', Returns (a.concat b) h c h' ∧
      (∀ word, (∀ x ∈ word, x.isHashable = true) →
        ∃ verdict, (c.run h'.graph word).2 = .ok verdict) ∧
      (∀ word, (c.run h'.graph word).2 = .ok true ↔
        (∃ u v, word = u ++ v ∧ h.graph.Reads a.start u a.stop ∧
          (b.run h.graph v).2 = .ok true) ∨
        ∃ t, h.graph.Reads a.start word t ∧ (h.graph.state t).isFinal = true ∧ t ≠ a.stop) ∧
      ((∀ t, h.graph.Reaches a.start t → ((h.graph.state t).isFinal = true ↔ t = a.stop)) →
        ∀ word, (c.run h'.graph word).2 = .ok true ↔
          ∃ u v, word = u ++ v ∧ (a.run h.graph u).2 = .ok true ∧
            (b.run h.graph v).2 = .ok true) := by
  obtain ⟨c, h', apart, f, f', bStart, hconcat, hapart, hjoined⟩ :=
    exists_concat ha hb hda hdb hastop hbstop
  have hdc : h'.graph.DistinctIds c.start := hapart.distinctIds_joined hjoined
  have hlanguage : ∀ word, (c.run h'.graph word).2 = .ok true ↔
      (∃ u v, word = u ++ v ∧ h.graph.Reads a.start u a.stop ∧ (b.run h.graph v).2 = .ok true) ∨
      ∃ t, h.graph.Reads a.start word t ∧ (h.graph.state t).isFinal = true ∧ t ≠ a.stop := by
    intro word
    rw [run_eq_ok_true_iff hdc, hapart.accepts_joined_iff hastop hjoined]
    simp only [run_eq_ok_true_iff hdb]
  refine ⟨c, h', hconcat, fun word hword => run_of_isHashable hword c, hlanguage, ?_⟩
  intro hfinal word
  rw [hlanguage]
  simp only [run_eq_ok_true_iff_reads_stop hda hfinal]
  constructor
  · rintro (hsplit | ⟨t, ht, hfinalt, hne⟩)
    · exact hsplit
    · exact absurd ((hfinal t ht.reaches).1 hfinalt) hne
  · exact Or.inl

/-- The loop followed by itself, with ids that the copies draw again. -/
theorem concat_language_loop :
    let h : Heap := { graph := .loop, nextIds := #[0] }
    let a : Automaton := .ofStates ⟨0⟩ ⟨1⟩ ⟨0⟩
    a.Within h ∧ h.graph.DistinctIds a.start ∧ h.graph.Reaches a.start a.stop ∧
      ∃ c h', Returns (a.concat a) h c h' ∧
        ∀ word, (c.run h'.graph word).2 = .ok true ↔
          ∃ u v, word = u ++ v ∧ (a.run h.graph u).2 = .ok true ∧
            (a.run h.graph v).2 = .ok true := by
  intro h a
  have ha : a.Within h := by decide
  have hd : h.graph.DistinctIds a.start := .of_nodup (by decide) (by decide)
  have hstop : h.graph.Reaches a.start a.stop := .step .refl (by decide)
  have hfinal : ∀ t ∈ h.graph.refs, (h.graph.state t).isFinal = true ↔ t = a.stop := by decide
  obtain ⟨c, h', hconcat, -, -, hlanguage⟩ := concat_language ha ha hd hd hstop hstop
  exact ⟨ha, hd, hstop, c, h', hconcat,
    hlanguage fun t ht => hfinal t (Graph.mem_refs.2 (ht.mem ha.start))⟩

end Automaton

end EpsilonNfa
