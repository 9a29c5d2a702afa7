import EpsilonNfa.Proofs.Edge
import EpsilonNfa.Proofs.Path
import Mathlib.Data.Set.Function

/-!
# Renaming the states below a state

A map of references renames what lies below a state when every state there has, in the other graph,
the finality and the renamed edges of the one that it is the name of. Paths then correspond in both
directions, whether or not two states get one name; where no two do, and the map is onto, the two
rooted graphs are isomorphic (`Graph.IsIso`).
-/

namespace EpsilonNfa.Graph

/-- The states below `s` have the names `f` in the graph `g'`. -/
structure Renames (g : Graph) (s : Ref) (f : Ref → Ref) (g' : Graph) : Prop where
  isFinal_eq : ∀ {r}, g.Reaches s r → (g'.state (f r)).isFinal = (g.state r).isFinal
  edges_eq : ∀ {r}, g.Reaches s r →
    (g'.state (f r)).edges = (g.state r).edges.map fun e => (e.1, f e.2)

/-- The states below `s` and those below `s'` correspond one to one, with all their edges in their
order. -/
structure IsIso (g : Graph) (s : Ref) (f : Ref → Ref) (g' : Graph) (s' : Ref) : Prop where
  renames : g.Renames s f g'
  root : f s = s'
  bijOn : Set.BijOn f {r | g.Reaches s r} {q | g'.Reaches s' q}

variable {g g' : Graph} {s r t q : Ref} {f : Ref → Ref} {x : Symbol} {word : List Symbol}

namespace Renames

theorem of_reaches (h : g.Renames s f g') (hr : g.Reaches s r) : g.Renames r f g' :=
  ⟨fun ht => h.isFinal_eq (hr.trans ht), fun ht => h.edges_eq (hr.trans ht)⟩

theorem targets_eq (h : g.Renames s f g') :
    (g'.state (f s)).targets = (g.state s).targets.map f := by
  rw [← State.map_snd_edges, ← State.map_snd_edges, h.edges_eq .refl, List.map_map, List.map_map]
  rfl

theorem mem_onEpsilon (h : g.Renames s f g') :
    q ∈ (g'.state (f s)).onEpsilon ↔ ∃ t ∈ (g.state s).onEpsilon, f t = q := by
  simp only [State.mem_onEpsilon, h.edges_eq .refl, List.mem_map, Prod.mk.injEq, Prod.exists]
  constructor
  · rintro ⟨x, t, he, rfl, rfl⟩
    exact ⟨t, he, rfl⟩
  · rintro ⟨t, he, rfl⟩
    exact ⟨_, t, he, rfl, rfl⟩

theorem mem_entries (h : g.Renames s f g') :
    (x, q) ∈ (g'.state (f s)).onSymbol.entries ↔
      ∃ t, (x, t) ∈ (g.state s).onSymbol.entries ∧ f t = q := by
  simp only [State.mem_entries, h.edges_eq .refl, List.mem_map, Prod.mk.injEq, Prod.exists]
  constructor
  · rintro ⟨⟨y, t, he, rfl, rfl⟩, hne⟩
    exact ⟨t, ⟨he, hne⟩, rfl⟩
  · rintro ⟨t, ⟨he, hne⟩, rfl⟩
    exact ⟨⟨x, t, he, rfl, rfl⟩, hne⟩

theorem reaches_iff (h : g.Renames s f g') :
    g'.Reaches (f s) q ↔ ∃ t, g.Reaches s t ∧ f t = q := by
  constructor
  · intro hq
    induction hq with
    | refl => exact ⟨s, .refl, rfl⟩
    | step _ edge ih =>
      obtain ⟨r, hr, rfl⟩ := ih
      obtain ⟨t, ht, rfl⟩ := List.mem_map.1 ((h.of_reaches hr).targets_eq ▸ edge)
      exact ⟨t, hr.step ht, rfl⟩
  · rintro ⟨t, ht, rfl⟩
    induction ht with
    | refl => exact .refl
    | step hr edge ih =>
      exact ih.step ((h.of_reaches hr).targets_eq ▸ List.mem_map.2 ⟨_, edge, rfl⟩)

theorem epsilonReaches_iff (h : g.Renames s f g') :
    g'.EpsilonReaches (f s) q ↔ ∃ t, g.EpsilonReaches s t ∧ f t = q := by
  constructor
  · intro hq
    induction hq with
    | refl => exact ⟨s, .refl, rfl⟩
    | step _ edge ih =>
      obtain ⟨r, hr, rfl⟩ := ih
      obtain ⟨t, ht, rfl⟩ := (h.of_reaches hr.reaches).mem_onEpsilon.1 edge
      exact ⟨t, hr.step ht, rfl⟩
  · rintro ⟨t, ht, rfl⟩
    induction ht with
    | refl => exact .refl
    | step hr edge ih => exact ih.step ((h.of_reaches hr.reaches).mem_onEpsilon.2 ⟨_, edge, rfl⟩)

theorem lands_iff (h : g.Renames s f g') :
    g'.Lands (f s) word q ↔ ∃ t, g.Lands s word t ∧ f t = q := by
  induction word generalizing s with
  | nil =>
    constructor
    · intro hq
      cases hq
      exact ⟨s, .nil s, rfl⟩
    · rintro ⟨t, ht, rfl⟩
      cases ht
      exact .nil _
  | cons y word ih =>
    constructor
    · rintro (_ | ⟨pass, edge, same, rest⟩)
      obtain ⟨p, hp, rfl⟩ := h.epsilonReaches_iff.1 pass
      obtain ⟨r, hr, rfl⟩ := (h.of_reaches hp.reaches).mem_entries.1 edge
      obtain ⟨t, ht, rfl⟩ := (ih (h.of_reaches (hp.reaches.step_symbol hr))).1 rest
      exact ⟨t, .letter hp hr same ht, rfl⟩
    · rintro ⟨t, _ | ⟨pass, edge, same, rest⟩, rfl⟩
      exact .letter (h.epsilonReaches_iff.2 ⟨_, pass, rfl⟩)
        ((h.of_reaches pass.reaches).mem_entries.2 ⟨_, edge, rfl⟩) same
        ((ih (h.of_reaches (pass.reaches.step_symbol edge))).2 ⟨t, rest, rfl⟩)

theorem reads_iff (h : g.Renames s f g') :
    g'.Reads (f s) word q ↔ ∃ t, g.Reads s word t ∧ f t = q := by
  simp only [reads_iff_lands]
  constructor
  · rintro ⟨p, hp, hq⟩
    obtain ⟨r, hr, rfl⟩ := h.lands_iff.1 hp
    obtain ⟨t, ht, rfl⟩ := (h.of_reaches hr.reaches).epsilonReaches_iff.1 hq
    exact ⟨t, ⟨r, hr, ht⟩, rfl⟩
  · rintro ⟨t, ⟨r, hr, ht⟩, rfl⟩
    exact ⟨f r, h.lands_iff.2 ⟨r, hr, rfl⟩,
      (h.of_reaches hr.reaches).epsilonReaches_iff.2 ⟨t, ht, rfl⟩⟩

theorem accepts_iff (h : g.Renames s f g') : g'.Accepts (f s) word ↔ g.Accepts s word := by
  unfold Accepts
  constructor
  · rintro ⟨q, hq, hfinal⟩
    obtain ⟨t, ht, rfl⟩ := h.reads_iff.1 hq
    exact ⟨t, ht, h.isFinal_eq ht.reaches ▸ hfinal⟩
  · rintro ⟨t, ht, hfinal⟩
    exact ⟨f t, h.reads_iff.2 ⟨t, ht, rfl⟩, (h.isFinal_eq ht.reaches).trans hfinal⟩

/-- A graph in which the states below `s` are unchanged renames nothing. -/
theorem of_state_eq (h : ∀ r, g.Reaches s r → g'.state r = g.state r) : g.Renames s id g' where
  isFinal_eq hr := by rw [id, h _ hr]
  edges_eq hr := by
    rw [id, h _ hr]
    simp

/-- Names that no two states share give an isomorphism. -/
theorem isIso (h : g.Renames s f g')
    (hf : ∀ r t, g.Reaches s r → g.Reaches s t → f r = f t → r = t) : g.IsIso s f g' (f s) where
  renames := h
  root := rfl
  bijOn := ⟨fun _ hr => h.reaches_iff.2 ⟨_, hr, rfl⟩, fun _ hr _ ht heq => hf _ _ hr ht heq,
    fun _ hq => h.reaches_iff.1 hq⟩

end Renames

namespace IsIso

variable {g'' : Graph} {s' s'' : Ref} {f' : Ref → Ref}

theorem reaches_iff (h : g.IsIso s f g' s') : g'.Reaches s' q ↔ ∃ t, g.Reaches s t ∧ f t = q := by
  rw [← h.root]
  exact h.renames.reaches_iff

theorem apply_eq_iff (h : g.IsIso s f g' s') (hr : g.Reaches s r) (ht : g.Reaches s t) :
    f r = f t ↔ r = t :=
  ⟨fun heq => h.bijOn.injOn hr ht heq, fun heq => heq ▸ rfl⟩

theorem reads_iff (h : g.IsIso s f g' s') (ht : g.Reaches s t) :
    g'.Reads s' word (f t) ↔ g.Reads s word t := by
  rw [← h.root, h.renames.reads_iff]
  constructor
  · intro hread
    obtain ⟨r, hr, heq⟩ := hread
    rwa [(h.apply_eq_iff hr.reaches ht).1 heq] at hr
  · exact fun hread => ⟨t, hread, rfl⟩

theorem accepts_iff (h : g.IsIso s f g' s') : g'.Accepts s' word ↔ g.Accepts s word := by
  rw [← h.root]
  exact h.renames.accepts_iff

theorem comp (h : g.IsIso s f g' s') (h' : g'.IsIso s' f' g'' s'') :
    g.IsIso s (f' ∘ f) g'' s'' where
  renames :=
    { isFinal_eq := fun hr => by
        rw [Function.comp, h'.renames.isFinal_eq (h.reaches_iff.2 ⟨_, hr, rfl⟩),
          h.renames.isFinal_eq hr]
      edges_eq := fun hr => by
        rw [Function.comp, h'.renames.edges_eq (h.reaches_iff.2 ⟨_, hr, rfl⟩),
          h.renames.edges_eq hr, List.map_map]
        rfl }
  root := by rw [Function.comp, h.root, h'.root]
  bijOn := h'.bijOn.comp h.bijOn

/-- A graph in which the states below `s` are unchanged is isomorphic to itself there. -/
theorem of_state_eq (h : ∀ r, g.Reaches s r → g'.state r = g.state r) : g.IsIso s id g' s :=
  (Renames.of_state_eq h).isIso fun _ _ _ _ heq => heq

end IsIso

end EpsilonNfa.Graph
