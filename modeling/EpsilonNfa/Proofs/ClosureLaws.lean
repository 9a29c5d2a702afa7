import EpsilonNfa.Proofs.EpsilonClosure
import Mathlib.Data.List.Nodup

/-!
# Laws of the epsilon closure

Where ids tell apart the states that epsilon edges lead to, the closure of a list is the set of
these states, and the laws of a closure follow from those of paths: neither the order nor the
repetitions of the list matter, a closure is its own closure, more states have a larger closure, and
the closure of a union is the union of the closures. Where states share ids the closure still holds
one state for each id that it meets (`Graph.epsilonClosure_exact`).
-/

namespace EpsilonNfa

/-- The ids of the states in a table are the keys under which they stand. -/
theorem IdMap.Keyed.map_id_values {g : Graph} {m : IdMap} (h : m.Keyed g) :
    (m.values.map fun r => (g.state r).id) = m.keys := by
  rw [values, keys, List.map_map]
  refine List.map_congr_left fun e he => ?_
  exact h (find?_eq_some_iff.2 he)

namespace Graph

variable {g : Graph} {l l' l₁ l₂ : List Ref} {s t : Ref}

/-- The state is one of the list, or lies beyond one of these along edges that read nothing. -/
def EpsilonBelow (g : Graph) (l : List Ref) (t : Ref) : Prop :=
  ∃ s ∈ l, g.EpsilonReaches s t

/-- No two states to which epsilon edges lead from those of the list have one id. -/
def EpsilonDistinct (g : Graph) (l : List Ref) : Prop :=
  ∀ r t, g.EpsilonBelow l r → g.EpsilonBelow l t → (g.state r).id = (g.state t).id → r = t

theorem EpsilonBelow.mono (ht : g.EpsilonBelow l t) (hsub : l ⊆ l') : g.EpsilonBelow l' t := by
  obtain ⟨s, hs, hreaches⟩ := ht
  exact ⟨s, hsub hs, hreaches⟩

namespace EpsilonDistinct

theorem mono (hd : g.EpsilonDistinct l') (hsub : l ⊆ l') : g.EpsilonDistinct l :=
  fun r t hr ht hid => hd r t (hr.mono hsub) (ht.mono hsub) hid

/-- Where no two states of a graph have one id, epsilon edges lead to no two such states. -/
theorem of_nodup (hl : ∀ s ∈ l, s ∈ g) (h : (g.refs.map fun r => (g.state r).id).Nodup) :
    g.EpsilonDistinct l := by
  have hmem : ∀ {t}, g.EpsilonBelow l t → t ∈ g.refs := by
    intro t ht
    obtain ⟨s, hs, hreaches⟩ := ht
    exact mem_refs.2 (hreaches.reaches.mem (hl s hs))
  exact fun r t hr ht hid => List.inj_on_of_nodup_map h (hmem hr) (hmem ht) hid

end EpsilonDistinct

/-! ## States that share ids -/

/-- A closure holds no two states of one id. -/
theorem nodup_ids_epsilonClosure (g : Graph) (l : List Ref) :
    ((g.epsilonClosure l).map fun r => (g.state r).id).Nodup := by
  obtain ⟨found, hclosure, hsound⟩ := g.exists_sound_epsilonClosure l
  rw [hclosure, hsound.keyed.map_id_values]
  exact found.nodup_keys

theorem nodup_epsilonClosure (g : Graph) (l : List Ref) : (g.epsilonClosure l).Nodup :=
  (g.nodup_ids_epsilonClosure l).of_map _

theorem epsilonBelow_of_mem_epsilonClosure (ht : t ∈ g.epsilonClosure l) : g.EpsilonBelow l t := by
  obtain ⟨found, hclosure, hsound⟩ := g.exists_sound_epsilonClosure l
  exact hsound.reached t (hclosure ▸ ht)

/-- A given state is in the closure, or another one with its id is. -/
theorem exists_mem_epsilonClosure (hs : s ∈ l) :
    ∃ t ∈ g.epsilonClosure l, (g.state t).id = (g.state s).id := by
  obtain ⟨found, hclosure, hsound⟩ := g.exists_sound_epsilonClosure l
  obtain ⟨t, ht⟩ := IdMap.mem_iff_exists_find?.1 (hsound.covers s hs)
  exact ⟨t, hclosure ▸ IdMap.mem_values.2 ⟨_, ht⟩, hsound.keyed ht⟩

/-! ## Ids that tell states apart -/

section Distinct

variable (hd : g.EpsilonDistinct l)
include hd

theorem mem_epsilonClosure_iff : t ∈ g.epsilonClosure l ↔ g.EpsilonBelow l t :=
  mem_epsilonClosure hd

/-- Closures with the same states are the same up to their order. -/
theorem epsilonClosure_perm_of (hd' : g.EpsilonDistinct l')
    (h : ∀ t, g.EpsilonBelow l' t ↔ g.EpsilonBelow l t) :
    (g.epsilonClosure l').Perm (g.epsilonClosure l) := by
  refine (List.perm_ext_iff_of_nodup (g.nodup_epsilonClosure l') (g.nodup_epsilonClosure l)).2 ?_
  intro t
  rw [mem_epsilonClosure_iff hd', mem_epsilonClosure_iff hd, h]

theorem epsilonClosure_perm (hl : ∀ s, s ∈ l' ↔ s ∈ l) :
    (g.epsilonClosure l').Perm (g.epsilonClosure l) := by
  have hsub : l' ⊆ l := fun s hs => (hl s).1 hs
  have hsub' : l ⊆ l' := fun s hs => (hl s).2 hs
  exact epsilonClosure_perm_of hd (hd.mono hsub) fun t => ⟨(·.mono hsub), (·.mono hsub')⟩

/-- Epsilon edges lead no further from the closure than from what it is the closure of. -/
theorem epsilonBelow_epsilonClosure : g.EpsilonBelow (g.epsilonClosure l) t ↔ g.EpsilonBelow l t := by
  constructor
  · intro ht
    obtain ⟨r, hr, hrt⟩ := ht
    obtain ⟨s, hs, hsr⟩ := epsilonBelow_of_mem_epsilonClosure hr
    exact ⟨s, hs, hsr.trans hrt⟩
  · exact fun ht => ⟨t, (mem_epsilonClosure_iff hd).2 ht, .refl⟩

theorem epsilonClosure_epsilonClosure :
    (g.epsilonClosure (g.epsilonClosure l)).Perm (g.epsilonClosure l) := by
  have hbelow : ∀ t, g.EpsilonBelow (g.epsilonClosure l) t ↔ g.EpsilonBelow l t := fun _ =>
    epsilonBelow_epsilonClosure hd
  have hd' : g.EpsilonDistinct (g.epsilonClosure l) := fun r t hr ht =>
    hd r t ((hbelow r).1 hr) ((hbelow t).1 ht)
  exact epsilonClosure_perm_of hd hd' hbelow

theorem epsilonClosure_subset (hsub : l' ⊆ l) : g.epsilonClosure l' ⊆ g.epsilonClosure l :=
  fun _ ht => (mem_epsilonClosure_iff hd).2 ((epsilonBelow_of_mem_epsilonClosure ht).mono hsub)

theorem mem_epsilonClosure_union (hl : ∀ s, s ∈ l ↔ s ∈ l₁ ∨ s ∈ l₂) :
    t ∈ g.epsilonClosure l ↔ t ∈ g.epsilonClosure l₁ ∨ t ∈ g.epsilonClosure l₂ := by
  have hsub₁ : l₁ ⊆ l := fun s hs => (hl s).2 (Or.inl hs)
  have hsub₂ : l₂ ⊆ l := fun s hs => (hl s).2 (Or.inr hs)
  constructor
  · intro ht
    obtain ⟨s, hs, hreaches⟩ := (mem_epsilonClosure_iff hd).1 ht
    refine ((hl s).1 hs).imp (fun hs => ?_) fun hs => ?_
    · exact (mem_epsilonClosure_iff (hd.mono hsub₁)).2 ⟨s, hs, hreaches⟩
    · exact (mem_epsilonClosure_iff (hd.mono hsub₂)).2 ⟨s, hs, hreaches⟩
  · exact fun ht => ht.elim (epsilonClosure_subset hd hsub₁ ·) (epsilonClosure_subset hd hsub₂ ·)

end Distinct

/-- Where ids tell apart the states to which epsilon edges lead from the given ones, the closure is
exactly these states. It depends neither on the order nor on the repetitions of the given states, it
is its own closure, it grows with the given states, and it is the union of the closures of any two
parts of them. On every graph it holds no two states of one id, only states to which epsilon edges
lead, and a state for the id of every given one. -/
theorem epsilonClosure_exact (g : Graph) (l : List Ref) :
    (g.EpsilonDistinct l →
      (∀ t, t ∈ g.epsilonClosure l ↔ ∃ s ∈ l, g.EpsilonReaches s t) ∧
      (∀ l', (∀ s, s ∈ l' ↔ s ∈ l) → (g.epsilonClosure l').Perm (g.epsilonClosure l)) ∧
      (g.epsilonClosure (g.epsilonClosure l)).Perm (g.epsilonClosure l) ∧
      (∀ l', l' ⊆ l → g.epsilonClosure l' ⊆ g.epsilonClosure l) ∧
      ∀ l₁ l₂, (∀ s, s ∈ l ↔ s ∈ l₁ ∨ s ∈ l₂) →
        ∀ t, t ∈ g.epsilonClosure l ↔ t ∈ g.epsilonClosure l₁ ∨ t ∈ g.epsilonClosure l₂) ∧
      ((g.epsilonClosure l).map fun r => (g.state r).id).Nodup ∧
      (∀ t ∈ g.epsilonClosure l, ∃ s ∈ l, g.EpsilonReaches s t) ∧
      ∀ s ∈ l, ∃ t ∈ g.epsilonClosure l, (g.state t).id = (g.state s).id := by
  refine ⟨fun hd => ?_, g.nodup_ids_epsilonClosure l, fun t => epsilonBelow_of_mem_epsilonClosure,
    fun s => exists_mem_epsilonClosure⟩
  exact ⟨fun t => mem_epsilonClosure_iff hd, fun l' => epsilonClosure_perm hd,
    epsilonClosure_epsilonClosure hd, fun l' => epsilonClosure_subset hd,
    fun l₁ l₂ hl t => mem_epsilonClosure_union hd hl⟩

/-- Three states on a ring of epsilon edges, one of which has two to the next, and a state behind
them. -/
def epsilonRing : Graph where
  states := #[{ id := 4, onEpsilon := [⟨1⟩, ⟨1⟩] }, { id := -1, onEpsilon := [⟨2⟩] },
    { id := 7, onEpsilon := [⟨0⟩], onSymbol := { entries := [(.text "a", ⟨3⟩)],
                                                 letters := by decide } },
    { id := 0 }]
  closed := by decide

/-- Each state of the ring has the closure of all three. -/
theorem epsilonClosure_exact_ring :
    epsilonRing.EpsilonDistinct [⟨2⟩, ⟨1⟩, ⟨2⟩] ∧
      (⟨0⟩ : Ref) ∈ epsilonRing.epsilonClosure [⟨2⟩, ⟨1⟩, ⟨2⟩] ∧
      (⟨3⟩ : Ref) ∉ epsilonRing.epsilonClosure [⟨2⟩, ⟨1⟩, ⟨2⟩] ∧
      (epsilonRing.epsilonClosure [⟨1⟩, ⟨2⟩]).Perm
        (epsilonRing.epsilonClosure [⟨2⟩, ⟨1⟩, ⟨2⟩]) := by
  have hd : epsilonRing.EpsilonDistinct [⟨2⟩, ⟨1⟩, ⟨2⟩] := .of_nodup (by decide) (by decide)
  obtain ⟨hexact, -⟩ := epsilonRing.epsilonClosure_exact [⟨2⟩, ⟨1⟩, ⟨2⟩]
  obtain ⟨hmem, hperm, -⟩ := hexact hd
  -- epsilon edges do not leave the ring
  have hring : ∀ {s t}, epsilonRing.EpsilonReaches s t → s ≠ ⟨3⟩ → t ≠ ⟨3⟩ := by
    intro s t hst hs
    induction hst with
    | refl => exact hs
    | @step r t _ edge ih =>
      have hedges : ∀ r ∈ epsilonRing.refs, ∀ t ∈ (epsilonRing.state r).onEpsilon, t ≠ ⟨3⟩ := by
        decide
      by_cases hr : r ∈ epsilonRing
      · exact hedges r (mem_refs.2 hr) t edge
      · rw [state_eq_default hr] at edge
        cases edge
  refine ⟨hd, (hmem _).2 ⟨⟨2⟩, by decide, .step .refl (by decide)⟩, fun h => ?_, hperm _ ?_⟩
  · obtain ⟨s, hs, hreaches⟩ := (hmem _).1 h
    exact hring hreaches ((by decide : ∀ s ∈ [(⟨2⟩ : Ref), ⟨1⟩, ⟨2⟩], s ≠ ⟨3⟩) s hs) rfl
  · intro s
    simp only [List.mem_cons, List.not_mem_nil, or_false]
    tauto

end Graph

end EpsilonNfa
