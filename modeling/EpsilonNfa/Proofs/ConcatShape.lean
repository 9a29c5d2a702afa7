import EpsilonNfa.Proofs.CopyShape

/-!
# The shape of a concatenation

Ids of an operand may collide, and its stop may be a state that no edge leads to. What a
concatenation makes of an operand depends on the shape that a traversal of it sees, and on the node
of this shape that has the id of the stop (`Automaton.HasShape`). Where there is such a node in both
operands the concatenation is made, and it is the join of the two shapes
(`Automaton.exists_concat_of_hasShape`); where one of them has none it fails
(`Automaton.concat_fails`).
-/

namespace EpsilonNfa

variable {ν μ : Type} {S : Shape ν} {T : Shape μ} {p : ν} {q : μ}

/-- A join of two parts without a common state is the join of their shapes. -/
theorem Graph.Joined.isIso_join [DecidableEq ν] {g g' : Graph} {f : ν → Ref} {f' : μ → Ref}
    {root root' : Ref} (h : g.Joined (f p) root' g') (hS : S.IsIso f (g.below root))
    (hT : T.IsIso f' (g.below root')) (hp : S.Reaches p)
    (hapart : ∀ r, g.Reaches root r → ¬ g.Reaches root' r) :
    (S.join p T).IsIso (Sum.elim f f') (g'.below root) := by
  have hfirst : ∀ {x}, S.Reaches x → g.Reaches root (f x) := fun hx =>
    Graph.reaches_below.1 (hS.reaches_iff.2 ⟨_, hx, rfl⟩)
  have hsecond : ∀ {y}, T.Reaches y → g.Reaches root' (f' y) := fun hy =>
    Graph.reaches_below.1 (hT.reaches_iff.2 ⟨_, hy, rfl⟩)
  have hne : ∀ {x y}, S.Reaches x → T.Reaches y → f x ≠ f' y := fun hx hy heq =>
    hapart _ (hfirst hx) (heq ▸ hsecond hy)
  -- of the old states only the one at the join has changed
  have hstate : ∀ {x}, S.Reaches x → x ≠ p → g'.state (f x) = g.state (f x) := fun hx hxp =>
    h.state_eq fun heq => hxp (hS.eq_of_apply_eq hx hp heq)
  have hstate' : ∀ {y}, T.Reaches y → g'.state (f' y) = g.state (f' y) := fun hy =>
    h.state_eq (hne hp hy).symm
  refine ⟨hS.start_eq, fun {z} hz => ?_, fun {z} hz => ?_, fun {z w} hz hw heq => ?_⟩
  · cases z with
    | inl x =>
      have hx := Shape.reaches_join_inl.1 hz
      by_cases hxp : x = p
      · subst hxp
        simpa [Shape.join, Graph.below] using h.isFinal_eq
      · have hfinal : (g.state (f x)).isFinal = S.isFinal x := hS.isFinal_eq hx
        simp [Shape.join, Graph.below, hstate hx hxp, hfinal, hxp]
    | inr y =>
      have hy := (Shape.reaches_join_inr.1 hz).2
      have hfinal : (g.state (f' y)).isFinal = T.isFinal y := hT.isFinal_eq hy
      simp [Shape.join, Graph.below, hstate' hy, hfinal]
  · cases z with
    | inl x =>
      have hx := Shape.reaches_join_inl.1 hz
      have hedges : (g.state (f x)).edges = (S.edges x).map fun e => (e.1, f e.2) := hS.edges_eq hx
      by_cases hxp : x = p
      · subst hxp
        have hstart : f' T.start = root' := hT.start_eq
        simp [Shape.join, Graph.below, h.edges_eq, hedges, hstart]
      · simp [Shape.join, Graph.below, hstate hx hxp, hedges, hxp]
    | inr y =>
      have hy := (Shape.reaches_join_inr.1 hz).2
      have hedges : (g.state (f' y)).edges = (T.edges y).map fun e => (e.1, f' e.2) :=
        hT.edges_eq hy
      simp [Shape.join, Graph.below, hstate' hy, hedges]
  · cases z with
    | inl x =>
      have hx := Shape.reaches_join_inl.1 hz
      cases w with
      | inl x' => exact congrArg Sum.inl (hS.eq_of_apply_eq hx (Shape.reaches_join_inl.1 hw) heq)
      | inr y => exact absurd heq (hne hx (Shape.reaches_join_inr.1 hw).2)
    | inr y =>
      have hy := (Shape.reaches_join_inr.1 hz).2
      cases w with
      | inl x => exact absurd heq.symm (hne (Shape.reaches_join_inl.1 hw) hy)
      | inr y' =>
        exact congrArg Sum.inr (hT.eq_of_apply_eq hy (Shape.reaches_join_inr.1 hw).2 heq)

/-- A traversal sees no more of a heap that has grown. -/
theorem Heap.Extends.shape_eq {h h' : Heap} {s : Ref} (hh : h.Extends h') (hs : s ∈ h.graph) :
    h'.graph.shape s = h.graph.shape s :=
  Graph.shape_of_state_eq fun r hr => hh.state_eq r (hr.mem hs)

namespace Automaton

variable {h h' : Heap} {a b : Automaton}

/-- A traversal from the start meets a state with the id of the stop. -/
def StopMet (g : Graph) (a : Automaton) : Prop :=
  (g.shape a.start).Reaches (g.state a.stop).id

/-- A traversal from the start sees the shape `S`, with the id of the stop at its node `p`. -/
def HasShape (g : Graph) (a : Automaton) (S : Shape ν) (p : ν) : Prop :=
  ∃ f, S.IsIso f (g.shape a.start) ∧ S.Reaches p ∧ f p = (g.state a.stop).id

theorem StopMet.hasShape {g : Graph} (hmet : a.StopMet g) :
    a.HasShape g (g.shape a.start) (g.state a.stop).id :=
  ⟨id, .refl _, hmet, rfl⟩

theorem HasShape.of_extends (hS : a.HasShape h.graph S p) (ha : a.Within h) (hh : h.Extends h') :
    a.HasShape h'.graph S p := by
  obtain ⟨f, hf, hp, hstop⟩ := hS
  refine ⟨f, ?_, hp, ?_⟩
  · rwa [hh.shape_eq ha.start]
  · rw [hh.state_eq _ ha.stop, hstop]

theorem stopMet_iff_of_extends (ha : a.Within h) (hh : h.Extends h') :
    a.StopMet h'.graph ↔ a.StopMet h.graph := by
  rw [StopMet, StopMet, hh.shape_eq ha.start, hh.state_eq _ ha.stop]

theorem Within.of_extends (ha : a.Within h) (hh : h.Extends h') : a.Within h' where
  start := hh.mem ha.start
  stop := hh.mem ha.stop
  ids := hh.source ha.ids
  current r hr := hh.mem (ha.current r hr)

/-- The states below the start are the nodes of `S` under other names, the stop is the one at `p`,
and ids tell them apart. -/
structure Realizes (g : Graph) (a : Automaton) (S : Shape ν) (p : ν) : Prop where
  distinctIds : g.DistinctIds a.start
  isIso : ∃ f, S.IsIso f (g.below a.start) ∧ f p = a.stop
  reaches : S.Reaches p

theorem Realizes.hasShape {g : Graph} (hS : a.Realizes g S p) : a.HasShape g S p := by
  obtain ⟨f, hf, hstop⟩ := hS.isIso
  exact ⟨_, hf.comp (Graph.isIso_shape hS.distinctIds), hS.reaches, by rw [Function.comp, hstop]⟩

theorem Realizes.reaches_stop {g : Graph} (hS : a.Realizes g S p) : g.Reaches a.start a.stop := by
  obtain ⟨f, hf, hstop⟩ := hS.isIso
  exact Graph.reaches_below.1 (hf.reaches_iff.2 ⟨p, hS.reaches, hstop⟩)

/-- Copies of two shapes, made one after the other from one source on the heap `h`. -/
structure CopiedPair (h : Heap) (S : Shape ν) (T : Shape μ) (f : ν → Ref) (f' : μ → Ref)
    (root root' : Ref) (h' : Heap) : Prop where
  grows : h.Extends h'
  first : S.IsIso f (h'.graph.below root)
  second : T.IsIso f' (h'.graph.below root')
  distinctIds_first : h'.graph.DistinctIds root
  distinctIds_second : h'.graph.DistinctIds root'
  id_ne : ∀ r t, h'.graph.Reaches root r → h'.graph.Reaches root' t →
    (h'.graph.state r).id ≠ (h'.graph.state t).id
  first_new : ∀ r, h'.graph.Reaches root r → r ∉ h.graph ∧ r ∈ h'.graph
  root_mem : root' ∈ h'.graph

/-- The first half of a concatenation: both operands are copied and both stops are found. -/
theorem exists_copiedPair (ha : a.Within h) (hb : b.Within h) (hS : a.HasShape h.graph S p)
    (hT : b.HasShape h.graph T q) :
    ∃ aStart aImages h₁ bStart bImages h₂ f f',
      Returns (HeapM.copyGraph a.start ∅ (some a.ids)) h (aStart, aImages) h₁ ∧
      Returns (HeapM.copyGraph b.start ∅ (some a.ids)) h₁ (bStart, bImages) h₂ ∧
      Returns (resolve aStart aImages a.stop) h₂ (f p) h₂ ∧
      Returns (resolve bStart bImages b.stop) h₂ (f' q) h₂ ∧
      CopiedPair h S T f f' aStart bStart h₂ := by
  obtain ⟨aStart, aImages, h₁, aCopies, hacopy, hca, haorder⟩ :=
    exists_copied_breadthFirst h a.ids a.start
  obtain ⟨bStart, bImages, h₂, bCopies, hbcopy, hcb, hborder⟩ :=
    exists_copied_breadthFirst h₁ a.ids b.start
  obtain ⟨f, hf, hp, hastop⟩ := hS
  obtain ⟨f', hf', hq, hbstop⟩ := hT.of_extends hb hca.grows
  have haids : a.ids ∈ h₁ := hca.grows.source ha.ids
  have hgrows := hca.grows.trans hcb.grows
  have hreach : ∀ {r}, h₂.graph.Reaches aStart r → h₁.graph.Reaches aStart r :=
    (hcb.grows.reaches_iff hca.root_mem).1
  -- the second copy leaves the first one as it is
  have hkept : (h₁.graph.below aStart).IsIso id (h₂.graph.below aStart) :=
    Graph.isIso_below_iff.2 <| .of_state_eq fun r hr =>
      hcb.grows.state_eq r (hca.not_mem_of_reaches hr).2
  have hresolve : Returns (resolve aStart aImages a.stop) h₂
      (aImages.imageOfId a.start (h.graph.state a.stop).id) h₂ :=
    hca.returns_resolve_of_mem haorder ha.ids hcb.grows
      (congrArg State.id (hgrows.state_eq _ ha.stop))
      (Graph.reaches_shape.1 (hf.reaches_iff.2 ⟨p, hp, hastop⟩))
  have hresolve' : Returns (resolve bStart bImages b.stop) h₂
      (bImages.imageOfId b.start (h₁.graph.state b.stop).id) h₂ :=
    hcb.returns_resolve_of_mem hborder haids (.refl h₂)
      (congrArg State.id (hcb.grows.state_eq _ (hca.grows.mem hb.stop)))
      (Graph.reaches_shape.1 (hf'.reaches_iff.2 ⟨q, hq, hbstop⟩))
  rw [← hastop] at hresolve
  rw [← hbstop] at hresolve'
  refine ⟨aStart, aImages, h₁, bStart, bImages, h₂, aImages.imageOfId a.start ∘ f,
    bImages.imageOfId b.start ∘ f', hacopy, hbcopy, hresolve, hresolve', ?_⟩
  exact
    { grows := hgrows
      first := (hf.comp (hca.isIso_shape haorder)).comp hkept
      second := hf'.comp (hcb.isIso_shape hborder)
      distinctIds_first := (hca.distinctIds ha.ids).of_state_eq hca.root_mem hcb.grows.state_eq
      distinctIds_second := hcb.distinctIds haids
      id_ne := fun r t hr ht => hca.id_ne_of_next ha.ids hcb (hreach hr) ht
      first_new := fun r hr =>
        ⟨(hca.not_mem_of_reaches (hreach hr)).1, hr.mem (hcb.grows.mem hca.root_mem)⟩
      root_mem := hcb.root_mem }

/-- The second half: the copies are joined at the stop of the first. -/
theorem exists_joinedPair (ha : a.Within h) (hb : b.Within h) (hS : a.HasShape h.graph S p)
    (hT : b.HasShape h.graph T q) :
    ∃ root root' f f' h₂ g,
      Returns (a.concat b) h (ofStates root (f' q) a.ids) { h₂ with graph := g } ∧
      CopiedPair h S T f f' root root' h₂ ∧ h₂.graph.Joined (f p) root' g ∧
      h.Extends { h₂ with graph := g } := by
  obtain ⟨aStart, aImages, h₁, bStart, bImages, h₂, f, f', hacopy, hbcopy, hresolve, hresolve',
    hpair⟩ := exists_copiedPair ha hb hS hT
  obtain ⟨-, -, hp, -⟩ := hS
  -- the stop of the first copy is new, so what happens to it changes no state of `h`
  have hnew := hpair.first_new (f p) <|
    Graph.reaches_below.1 (hpair.first.reaches_iff.2 ⟨p, hp, rfl⟩)
  obtain ⟨g, hconnect, hjoined⟩ := Graph.exists_joined hnew.2 hpair.root_mem
  refine ⟨aStart, bStart, f, f', h₂, g, ?_, hpair, hjoined, ?_⟩
  · unfold concat
    refine .bind hacopy (.bind hbcopy (.bind hresolve (.bind hresolve' ?_)))
    exact .bind (HeapM.returns_setFinal ..) (.bind (HeapM.returns_connect hconnect) (.pure _ _))
  · exact hpair.grows.setGraph (fun hr => hjoined.mem_iff.2 hr)
      fun r hr => hjoined.state_eq fun heq => hnew.1 (heq ▸ hr)

/-- The concatenation of two automata whose traversals meet their stops is made, and is the join of
the shapes that the traversals see. -/
theorem exists_concat_of_hasShape [DecidableEq ν] (ha : a.Within h) (hb : b.Within h)
    (hS : a.HasShape h.graph S p) (hT : b.HasShape h.graph T q) :
    ∃ c h', Returns (a.concat b) h c h' ∧ h.Extends h' ∧ c.Within h' ∧
      c.Realizes h'.graph (S.join p T) (.inr q) := by
  obtain ⟨root, root', f, f', h₂, g, hreturns, hpair, hjoined, hgrows⟩ :=
    exists_joinedPair ha hb hS hT
  obtain ⟨-, -, hp, -⟩ := hS
  obtain ⟨-, -, hq, -⟩ := hT
  have hstart : root ∈ g := hjoined.mem_iff.2 (hpair.first_new _ .refl).2
  have hreaches : h₂.graph.Reaches root' (f' q) :=
    Graph.reaches_below.1 (hpair.second.reaches_iff.2 ⟨q, hq, rfl⟩)
  have hstop : f' q ∈ g := hjoined.mem_iff.2 (hreaches.mem hpair.root_mem)
  refine ⟨ofStates root (f' q) a.ids, { h₂ with graph := g }, hreturns, hgrows, ?_, ?_⟩
  · exact ⟨hstart, hstop, hgrows.source ha.ids, fun r hr => List.mem_singleton.1 hr ▸ hstart⟩
  · have hiso := hjoined.isIso_join hpair.first hpair.second hp
      fun r hr hr' => hpair.id_ne r r hr hr' rfl
    exact
      { distinctIds :=
          hjoined.distinctIds hpair.distinctIds_first hpair.distinctIds_second hpair.id_ne
        isIso := ⟨Sum.elim f f', hiso, rfl⟩
        reaches := Shape.reaches_join_inr.2 ⟨hp, hq⟩ }

/-- Where the traversal of an operand does not meet the id of its stop, a concatenation fails. -/
theorem concat_fails (ha : a.Within h) (hb : b.Within h)
    (hmet : ¬ (a.StopMet h.graph ∧ b.StopMet h.graph)) :
    ∃ i h', Fails (a.concat b) h (.notCopied i) h' := by
  obtain ⟨aStart, aImages, h₁, aCopies, hacopy, hca, haorder⟩ :=
    exists_copied_breadthFirst h a.ids a.start
  obtain ⟨bStart, bImages, h₂, bCopies, hbcopy, hcb, hborder⟩ :=
    exists_copied_breadthFirst h₁ a.ids b.start
  have hastop : (h₂.graph.state a.stop).id = (h.graph.state a.stop).id :=
    congrArg State.id ((hca.grows.trans hcb.grows).state_eq _ ha.stop)
  have hbstop : (h₂.graph.state b.stop).id = (h₁.graph.state b.stop).id :=
    congrArg State.id (hcb.grows.state_eq _ (hca.grows.mem hb.stop))
  by_cases hamet : a.StopMet h.graph
  · have hbmet : ¬ b.StopMet h₁.graph := fun hbmet =>
      hmet ⟨hamet, (stopMet_iff_of_extends hb hca.grows).1 hbmet⟩
    refine ⟨(h₁.graph.state b.stop).id, h₂, ?_⟩
    have hresolve := hca.returns_resolve_of_mem haorder ha.ids hcb.grows hastop
      (Graph.reaches_shape.1 hamet)
    refine .of_bind hacopy (.of_bind hbcopy (.of_bind hresolve ?_))
    exact .bind (hcb.run_resolve_of_not_mem hborder hbstop
      fun hmem => hbmet (Graph.reaches_shape.2 hmem)) _
  · refine ⟨(h.graph.state a.stop).id, h₂, .of_bind hacopy (.of_bind hbcopy ?_)⟩
    exact .bind (hca.run_resolve_of_not_mem haorder hastop
      fun hmem => hamet (Graph.reaches_shape.2 hmem)) _

end Automaton

/-- Two states of one id, of which a traversal from the first state meets the first. -/
def Graph.twins : Graph where
  states := #[{ id := 4, onSymbol := { entries := [(.text "a", ⟨1⟩), (.int 7, ⟨2⟩)],
                                       letters := by decide, distinct := by decide } },
    { id := 1, onEpsilon := [⟨0⟩] },
    { id := 1, isFinal := true }]
  closed := by decide

/-- A traversal meets the id of the second of the twins, though not that state. -/
theorem Automaton.stopMet_twins : (ofStates ⟨0⟩ ⟨2⟩ ⟨0⟩).StopMet Graph.twins := by
  have hstart : (⟨0⟩ : Ref) ∈ Graph.twins.breadthFirst ⟨0⟩ := by
    obtain ⟨rest, hrest⟩ := Graph.twins.breadthFirst_eq_cons ⟨0⟩
    rw [hrest]
    exact List.mem_cons_self
  exact Graph.reaches_shape.2 (Graph.id_mem_idsBelow hstart (t := ⟨1⟩) (by decide))

end EpsilonNfa
