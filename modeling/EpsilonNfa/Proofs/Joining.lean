import EpsilonNfa.Proofs.Edge
import EpsilonNfa.Proofs.Path

/-!
# Joining two parts of a graph

One state gives up being final and gets an epsilon edge to another. A path of the graph after is one
of the graph before, or follows one of these to the join and goes on behind it
(`Graph.Joined.reads_iff`). Where the part behind the join does not lead back to it, what is
accepted is a word that splits there (`Graph.Joined.accepts_iff`).
-/

namespace EpsilonNfa.Graph

/-- The graph in which `p` is not final and has an epsilon edge to `q` behind its other edges. -/
structure Joined (g : Graph) (p q : Ref) (g' : Graph) : Prop where
  size_eq : g'.size = g.size
  state_eq : ∀ {r}, r ≠ p → g'.state r = g.state r
  id_eq : (g'.state p).id = (g.state p).id
  isFinal_eq : (g'.state p).isFinal = false
  edges_eq : (g'.state p).edges = (g.state p).edges ++ [(.epsilon, q)]

variable {g g' : Graph} {p q r s t : Ref} {x : Symbol} {word : List Symbol}

theorem state_setFinal_self (hp : p ∈ g) (isFinal : Bool) :
    (g.setFinal p isFinal).state p = { g.state p with isFinal } := by
  unfold setFinal
  rw [state_replace, if_pos ⟨rfl, hp⟩]

theorem state_setFinal_of_ne (hr : r ≠ p) (isFinal : Bool) :
    (g.setFinal p isFinal).state r = g.state r := by
  unfold setFinal
  rw [state_replace, if_neg fun h => hr h.1]

theorem exists_joined (hp : p ∈ g) (hq : q ∈ g) :
    ∃ g', (g.setFinal p false).connect p .epsilon q = .ok g' ∧ g.Joined p q g' := by
  have hsize : (g.setFinal p false).size = g.size := size_setFinal ..
  have hself := state_setFinal_self hp false
  obtain ⟨g', hconnect, hg'⟩ := exists_connect (g := g.setFinal p false) (s := p) (t := q)
    (by rwa [mem_iff, hsize]) (by rwa [mem_iff, hsize]) (x := .epsilon) rfl fun h => absurd rfl h
  refine ⟨g', hconnect, hg'.size_eq.trans hsize, ?_, ?_, ?_, ?_⟩
  · intro r hr
    rw [hg'.state_eq hr, state_setFinal_of_ne hr]
  · rw [hg'.id_eq, hself]
  · rw [hg'.isFinal_eq, hself]
  · rw [hg'.edges_eq, hself]
    rfl

namespace Joined

theorem mem_iff (h : g.Joined p q g') : r ∈ g' ↔ r ∈ g := by
  rw [Graph.mem_iff, Graph.mem_iff, h.size_eq]

theorem id_eq' (h : g.Joined p q g') (r : Ref) : (g'.state r).id = (g.state r).id := by
  by_cases hr : r = p
  · rw [hr, h.id_eq]
  · rw [h.state_eq hr]

theorem isFinal_iff (h : g.Joined p q g') :
    (g'.state r).isFinal = true ↔ (g.state r).isFinal = true ∧ r ≠ p := by
  by_cases hr : r = p
  · rw [hr, h.isFinal_eq]
    simp
  · rw [h.state_eq hr]
    simp [hr]

theorem mem_edges (h : g.Joined p q g') {e : Symbol × Ref} :
    e ∈ (g'.state r).edges ↔ e ∈ (g.state r).edges ∨ r = p ∧ e = (.epsilon, q) := by
  by_cases hr : r = p
  · rw [hr, h.edges_eq, List.mem_append, List.mem_singleton]
    simp
  · rw [h.state_eq hr]
    simp [hr]

theorem mem_onEpsilon (h : g.Joined p q g') :
    s ∈ (g'.state r).onEpsilon ↔ s ∈ (g.state r).onEpsilon ∨ r = p ∧ s = q := by
  rw [State.mem_onEpsilon, State.mem_onEpsilon, h.mem_edges, Prod.mk.injEq]
  simp

theorem mem_entries (h : g.Joined p q g') :
    (x, s) ∈ (g'.state r).onSymbol.entries ↔ (x, s) ∈ (g.state r).onSymbol.entries := by
  rw [State.mem_entries, State.mem_entries, h.mem_edges]
  constructor
  · rintro ⟨he | ⟨-, he⟩, hne⟩
    · exact ⟨he, hne⟩
    · exact absurd (congrArg Prod.fst he) hne
  · exact fun ⟨he, hne⟩ => ⟨Or.inl he, hne⟩

theorem mem_targets (h : g.Joined p q g') :
    t ∈ (g'.state r).targets ↔ t ∈ (g.state r).targets ∨ r = p ∧ t = q := by
  by_cases hr : r = p
  · rw [hr, ← State.map_snd_edges, h.edges_eq, List.map_append, State.map_snd_edges, List.mem_append,
      List.map_singleton, List.mem_singleton]
    simp
  · rw [h.state_eq hr]
    simp [hr]

theorem reaches_of_reaches (h : g.Joined p q g') (ht : g.Reaches r t) : g'.Reaches r t := by
  induction ht with
  | refl => exact .refl
  | step _ edge ih => exact ih.step (h.mem_targets.2 (Or.inl edge))

/-- What can be reached after the join could be reached before, or lies behind the join. -/
theorem reaches (h : g.Joined p q g') (ht : g'.Reaches r t) : g.Reaches r t ∨ g.Reaches q t := by
  induction ht with
  | refl => exact Or.inl .refl
  | @step s t _ edge ih =>
    rw [← State.map_snd_edges, List.mem_map] at edge
    obtain ⟨e, he, rfl⟩ := edge
    rcases h.mem_edges.1 he with he | ⟨-, rfl⟩
    · have hedge : e.2 ∈ (g.state s).targets :=
        State.map_snd_edges _ ▸ List.mem_map.2 ⟨e, he, rfl⟩
      exact ih.imp (·.step hedge) (·.step hedge)
    · exact Or.inr .refl

/-- Where ids tell apart the states of both parts, also those of one part from those of the other,
they tell apart all states after the join. -/
theorem distinctIds (h : g.Joined p q g') (hr : g.DistinctIds r) (hq : g.DistinctIds q)
    (hne : ∀ s t, g.Reaches r s → g.Reaches q t → (g.state s).id ≠ (g.state t).id) :
    g'.DistinctIds r := by
  intro s t hs ht hid
  rw [h.id_eq', h.id_eq'] at hid
  rcases h.reaches hs with hs | hs <;> rcases h.reaches ht with ht | ht
  · exact hr s t hs ht hid
  · exact absurd hid (hne s t hs ht)
  · exact absurd hid.symm (hne t s ht hs)
  · exact hq s t hs ht hid

theorem reads_of_reads (h : g.Joined p q g') (ht : g.Reads r word t) : g'.Reads r word t := by
  induction ht with
  | nil r => exact .nil r
  | pass edge _ ih => exact .pass (h.mem_onEpsilon.2 (Or.inl edge)) ih
  | letter edge same _ ih => exact .letter (h.mem_entries.2 edge) same ih

/-- A path either avoids the join or passes it a first time. -/
theorem reads_iff (h : g.Joined p q g') :
    g'.Reads r word t ↔
      g.Reads r word t ∨ ∃ u v, word = u ++ v ∧ g.Reads r u p ∧ g'.Reads q v t := by
  constructor
  · intro ht
    induction ht with
    | nil r => exact Or.inl (.nil r)
    | @pass r s t word edge rest ih =>
      rcases h.mem_onEpsilon.1 edge with edge | ⟨rfl, rfl⟩
      · rcases ih with hs | ⟨u, v, rfl, hu, hv⟩
        · exact Or.inl (.pass edge hs)
        · exact Or.inr ⟨u, v, rfl, .pass edge hu, hv⟩
      · exact Or.inr ⟨[], word, rfl, .nil r, rest⟩
    | letter edge same _ ih =>
      rcases ih with hs | ⟨u, v, rfl, hu, hv⟩
      · exact Or.inl (.letter (h.mem_entries.1 edge) same hs)
      · exact Or.inr ⟨_ :: u, v, rfl, .letter (h.mem_entries.1 edge) same hu, hv⟩
  · rintro (ht | ⟨u, v, rfl, hu, hv⟩)
    · exact h.reads_of_reads ht
    · exact (h.reads_of_reads hu).append (.pass (h.mem_onEpsilon.2 (Or.inr ⟨rfl, rfl⟩)) hv)

theorem reads_iff_of_not_reaches (h : g.Joined p q g') (hr : ¬ g.Reaches r p) :
    g'.Reads r word t ↔ g.Reads r word t := by
  constructor
  · intro ht
    rcases h.reads_iff.1 ht with ht | ⟨u, v, -, hu, -⟩
    · exact ht
    · exact absurd hu.reaches hr
  · exact h.reads_of_reads

/-- A word is accepted if a part of it leads to the join and the rest is accepted behind it, or if
it leads to a final state other than the join without passing it. -/
theorem accepts_iff (h : g.Joined p q g') (hq : ¬ g.Reaches q p) :
    g'.Accepts r word ↔
      (∃ u v, word = u ++ v ∧ g.Reads r u p ∧ g.Accepts q v) ∨
      ∃ t, g.Reads r word t ∧ (g.state t).isFinal = true ∧ t ≠ p := by
  unfold Accepts
  constructor
  · rintro ⟨t, ht, hfinal⟩
    obtain ⟨hfinal, hne⟩ := h.isFinal_iff.1 hfinal
    rcases h.reads_iff.1 ht with ht | ⟨u, v, rfl, hu, hv⟩
    · exact Or.inr ⟨t, ht, hfinal, hne⟩
    · exact Or.inl ⟨u, v, rfl, hu, t, (h.reads_iff_of_not_reaches hq).1 hv, hfinal⟩
  · rintro (⟨u, v, rfl, hu, t, hv, hfinal⟩ | ⟨t, ht, hfinal, hne⟩)
    · have hne : t ≠ p := fun heq => hq (heq ▸ hv.reaches)
      exact ⟨t, h.reads_iff.2 (Or.inr ⟨u, v, rfl, hu, (h.reads_iff_of_not_reaches hq).2 hv⟩),
        h.isFinal_iff.2 ⟨hfinal, hne⟩⟩
    · exact ⟨t, h.reads_of_reads ht, h.isFinal_iff.2 ⟨hfinal, hne⟩⟩

end Joined

end EpsilonNfa.Graph
