import EpsilonNfa.Graph.Path
import EpsilonNfa.Graph.Search

/-!
# Preorder search and reachability

A search that gives a state gives one that it can reach and that passes the test. A search that
gives none leaves a set of tested states behind which is closed under following edges, up to ids
(`Graph.Refused`); where ids tell the states below the start apart these are all states below the
start.
-/

namespace EpsilonNfa.Graph

variable {g : Graph} {test : Ref → Bool} {stack tested : List Ref} {marked : List Int}
variable {root r t : Ref} {id : Int}

theorem searchFrom_nil : g.searchFrom (m := Id) test [] marked = none := by
  rw [searchFrom]
  rfl

theorem searchFrom_cons_of_mem (h : (g.state r).id ∈ marked) :
    g.searchFrom (m := Id) test (r :: stack) marked =
      g.searchFrom (m := Id) test stack marked := by
  rw [searchFrom, dif_pos h]

theorem searchFrom_cons_of_test (h : (g.state r).id ∉ marked) (ht : test r = true) :
    g.searchFrom (m := Id) test (r :: stack) marked = some r := by
  rw [searchFrom, dif_neg h]
  show (if test r = true then _ else _) = _
  rw [if_pos ht]
  rfl

theorem searchFrom_cons_of_not_test (h : (g.state r).id ∉ marked) (ht : ¬ test r = true) :
    g.searchFrom (m := Id) test (r :: stack) marked =
      g.searchFrom (m := Id) test ((g.state r).targets ++ stack) ((g.state r).id :: marked) := by
  rw [searchFrom, dif_neg h]
  show (if test r = true then _ else _) = _
  rw [if_neg ht]

/-- What is found lies below the stack and passes the test. -/
theorem searchFrom_eq_some (h : g.searchFrom (m := Id) test stack marked = some t) :
    (∃ s ∈ stack, g.Reaches s t) ∧ test t = true := by
  induction stack, marked using searchFrom.induct g with
  | case1 marked =>
    rw [searchFrom_nil] at h
    cases h
  | case2 marked r rest hr ih =>
    rw [searchFrom_cons_of_mem hr] at h
    obtain ⟨⟨s, hs, hst⟩, htest⟩ := ih h
    exact ⟨⟨s, List.mem_cons_of_mem _ hs, hst⟩, htest⟩
  | case3 marked r rest hr ih =>
    by_cases hrtest : test r = true
    · rw [searchFrom_cons_of_test hr hrtest] at h
      cases h
      exact ⟨⟨t, List.mem_cons_self, .refl⟩, hrtest⟩
    · rw [searchFrom_cons_of_not_test hr hrtest] at h
      obtain ⟨⟨s, hs, hst⟩, htest⟩ := ih h
      refine ⟨?_, htest⟩
      rcases List.mem_append.1 hs with hs | hs
      · exact ⟨r, List.mem_cons_self, (Reaches.refl.step hs).trans hst⟩
      · exact ⟨s, List.mem_cons_of_mem _ hs, hst⟩

/-- The id of the state is marked, or is that of a state of the list. -/
def Seen (g : Graph) (marked : List Int) (tested : List Ref) (t : Ref) : Prop :=
  (g.state t).id ∈ marked ∨ ∃ r ∈ tested, (g.state r).id = (g.state t).id

/-- A state whose id has been marked may as well stand among those that were tested. -/
theorem Seen.of_cons (h : g.Seen ((g.state r).id :: marked) tested t) :
    g.Seen marked (r :: tested) t := by
  rcases h with h | ⟨q, hq, hid⟩
  · rcases List.mem_cons.1 h with h | h
    · exact Or.inr ⟨r, List.mem_cons_self, h.symm⟩
    · exact Or.inl h
  · exact Or.inr ⟨q, List.mem_cons_of_mem _ hq, hid⟩

/-- What a search from the stack has tested when it gives nothing: states below the stack, among
whose ids and the marked ones are those of the stack and of all that their edges lead to. -/
structure Refused (g : Graph) (test : Ref → Bool) (stack : List Ref) (marked : List Int)
    (tested : List Ref) : Prop where
  refused : ∀ r ∈ tested, ¬ test r = true
  below : ∀ r ∈ tested, ∃ s ∈ stack, g.Reaches s r
  stack_seen : ∀ s ∈ stack, g.Seen marked tested s
  targets_seen : ∀ r ∈ tested, ∀ t ∈ (g.state r).targets, g.Seen marked tested t

namespace Refused

theorem nil (marked : List Int) : g.Refused test [] marked [] :=
  ⟨by simp, by simp, by simp, by simp⟩

theorem skip (h : g.Refused test stack marked tested) (hr : (g.state r).id ∈ marked) :
    g.Refused test (r :: stack) marked tested := by
  refine ⟨h.refused, ?_, ?_, h.targets_seen⟩
  · intro q hq
    obtain ⟨s, hs, hsq⟩ := h.below q hq
    exact ⟨s, List.mem_cons_of_mem _ hs, hsq⟩
  · intro s hs
    rcases List.mem_cons.1 hs with rfl | hs
    · exact Or.inl hr
    · exact h.stack_seen s hs

theorem visit (h : g.Refused test ((g.state r).targets ++ stack) ((g.state r).id :: marked) tested)
    (hr : ¬ test r = true) : g.Refused test (r :: stack) marked (r :: tested) := by
  refine ⟨?_, ?_, ?_, ?_⟩
  · intro q hq
    rcases List.mem_cons.1 hq with rfl | hq
    · exact hr
    · exact h.refused q hq
  · intro q hq
    rcases List.mem_cons.1 hq with rfl | hq
    · exact ⟨q, List.mem_cons_self, .refl⟩
    · obtain ⟨s, hs, hsq⟩ := h.below q hq
      rcases List.mem_append.1 hs with hs | hs
      · exact ⟨r, List.mem_cons_self, (Reaches.refl.step hs).trans hsq⟩
      · exact ⟨s, List.mem_cons_of_mem _ hs, hsq⟩
  · intro s hs
    rcases List.mem_cons.1 hs with rfl | hs
    · exact Or.inr ⟨s, List.mem_cons_self, rfl⟩
    · exact (h.stack_seen s (List.mem_append_right _ hs)).of_cons
  · intro q hq t ht
    rcases List.mem_cons.1 hq with rfl | hq
    · exact (h.stack_seen t (List.mem_append_left _ ht)).of_cons
    · exact (h.targets_seen q hq t ht).of_cons

/-- Where ids tell the states below the start apart, these are the ones that are tested. -/
theorem mem_iff (h : g.Refused test [root] [] tested) (hd : g.DistinctIds root) :
    t ∈ tested ↔ g.Reaches root t := by
  have hreaches : ∀ q ∈ tested, g.Reaches root q := by
    intro q hq
    obtain ⟨s, hs, hsq⟩ := h.below q hq
    rwa [List.mem_singleton.1 hs] at hsq
  have hmem : ∀ q, g.Reaches root q → g.Seen [] tested q → q ∈ tested := by
    intro q hq hseen
    obtain ⟨r, hr, hid⟩ := hseen.resolve_left List.not_mem_nil
    rwa [hd q r hq (hreaches r hr) hid.symm]
  refine ⟨hreaches t, fun ht => ?_⟩
  induction ht with
  | refl => exact hmem root .refl (h.stack_seen root List.mem_cons_self)
  | @step r t hr edge ih => exact hmem t (hr.step edge) (h.targets_seen r ih t edge)

end Refused

theorem searchFrom_eq_none (h : g.searchFrom (m := Id) test stack marked = none) :
    ∃ tested, g.Refused test stack marked tested := by
  induction stack, marked using searchFrom.induct g with
  | case1 marked => exact ⟨[], .nil marked⟩
  | case2 marked r rest hr ih =>
    rw [searchFrom_cons_of_mem hr] at h
    obtain ⟨tested, htested⟩ := ih h
    exact ⟨tested, htested.skip hr⟩
  | case3 marked r rest hr ih =>
    by_cases hrtest : test r = true
    · rw [searchFrom_cons_of_test hr hrtest] at h
      cases h
    · rw [searchFrom_cons_of_not_test hr hrtest] at h
      obtain ⟨tested, htested⟩ := ih h
      exact ⟨r :: tested, htested.visit hrtest⟩

/-- A search that gives nothing has refused every state below the start. -/
theorem findFirst?_eq_none (hd : g.DistinctIds root)
    (h : g.findFirst? (m := Id) root test = none) (ht : g.Reaches root t) : ¬ test t = true := by
  obtain ⟨tested, htested⟩ := searchFrom_eq_none h
  exact htested.refused t ((htested.mem_iff hd).2 ht)

/-- Looking for an id finds the state below the start that has it, and fails if there is none. -/
theorem findById_eq_ok_iff (hd : g.DistinctIds root) :
    g.findById root id = .ok t ↔ g.Reaches root t ∧ (g.state t).id = id := by
  unfold findById
  cases hfind : g.findFirst? (m := Id) root fun r => (g.state r).id == id with
  | none =>
    constructor
    · intro h
      cases h
    · rintro ⟨ht, hid⟩
      exact absurd (by simpa using hid) (findFirst?_eq_none hd hfind ht)
  | some q =>
    obtain ⟨⟨s, hs, hsq⟩, htest⟩ := searchFrom_eq_some hfind
    rw [List.mem_singleton.1 hs] at hsq
    have hqid : (g.state q).id = id := by simpa using htest
    constructor
    · intro h
      cases h
      exact ⟨hsq, hqid⟩
    · rintro ⟨ht, hid⟩
      rw [hd q t hsq ht (hqid.trans hid.symm)]

end EpsilonNfa.Graph
