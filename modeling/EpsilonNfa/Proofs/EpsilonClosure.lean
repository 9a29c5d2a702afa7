import EpsilonNfa.Graph.EpsilonClosure
import EpsilonNfa.Graph.Path

/-!
# Exactness of the epsilon closure

The search along epsilon edges is told apart from the relation that it computes: it holds one state
for each id, and the relation knows states by reference. Its invariant `ClosureSearch.Sound` does
not depend on ids being distinct; that is used once, when the search is over, to read the closure
off the table (`Graph.mem_epsilonClosure`).
-/

namespace EpsilonNfa

namespace IdMap

variable {g : Graph} {m : IdMap} {i : Int} {r t : Ref}

theorem mem_values : r ∈ m.values ↔ ∃ i, m.find? i = some r := by
  simp [values, find?_eq_some_iff]

@[simp] theorem find?_empty : (∅ : IdMap).find? i = none := rfl

@[simp] theorem values_empty : (∅ : IdMap).values = [] := rfl

theorem mem_values_of_mem_values_insert (h : t ∈ (m.insert i r).values) :
    t ∈ m.values ∨ t = r := by
  obtain ⟨j, hj⟩ := mem_values.1 h
  by_cases hji : j = i
  · subst hji
    rw [find?_insert_self] at hj
    exact Or.inr (Option.some.inj hj).symm
  · rw [find?_insert_of_ne hji] at hj
    exact Or.inl (mem_values.2 ⟨j, hj⟩)

/-- Every state stands under its own id. -/
def Keyed (g : Graph) (m : IdMap) : Prop :=
  ∀ ⦃i r⦄, m.find? i = some r → (g.state r).id = i

namespace Keyed

theorem empty : Keyed g ∅ := by
  intro i r h
  simp at h

theorem insert (h : m.Keyed g) (r : Ref) : (m.insert (g.state r).id r).Keyed g := by
  intro i q hq
  by_cases hi : i = (g.state r).id
  · subst hi
    rw [find?_insert_self] at hq
    rw [Option.some.inj hq]
  · rw [find?_insert_of_ne hi] at hq
    exact h hq

theorem mem_values_iff (h : m.Keyed g) : r ∈ m.values ↔ m.find? (g.state r).id = some r := by
  rw [mem_values]
  constructor
  · rintro ⟨i, hi⟩
    rwa [h hi]
  · exact fun hr => ⟨_, hr⟩

/-- A state whose id no other state of the table has joins the others. -/
theorem mem_values_insert (h : m.Keyed g)
    (hr : ∀ q ∈ m.values, (g.state q).id = (g.state r).id → q = r) :
    t ∈ (m.insert (g.state r).id r).values ↔ t ∈ m.values ∨ t = r := by
  constructor
  · exact mem_values_of_mem_values_insert
  · rintro (ht | rfl)
    · rw [(h.insert r).mem_values_iff]
      by_cases hid : (g.state t).id = (g.state r).id
      · rw [hid, hr t ht hid, find?_insert_self]
      · rw [find?_insert_of_ne hid]
        exact h.mem_values_iff.1 ht
    · exact mem_values.2 ⟨_, find?_insert_self⟩

end Keyed

end IdMap

namespace ClosureSearch

variable {g : Graph} {l : List Ref} {w : ClosureSearch} {p t : Ref}

/-- What a search from the states `l` knows when the edges of `todo` are still to be followed. -/
structure Sound (g : Graph) (l : List Ref) (found : IdMap) (todo : List Ref) : Prop where
  keyed : found.Keyed g
  reached : ∀ r ∈ found.values, ∃ s ∈ l, g.EpsilonReaches s r
  covers : ∀ s ∈ l, (g.state s).id ∈ found
  waiting : ∀ r ∈ todo, r ∈ found.values
  closed : ∀ r ∈ found.values, r ∈ todo ∨ ∀ t ∈ (g.state r).onEpsilon, (g.state t).id ∈ found

theorem mem_found_visit {i : Int} :
    i ∈ (w.visit g t).found ↔ i ∈ w.found ∨ i = (g.state t).id := by
  unfold visit
  split
  · next h =>
    constructor
    · exact Or.inl
    · rintro (hi | rfl)
      · exact hi
      · exact h
  · exact IdMap.mem_insert

/-- Noting a target of the state `p` that is being expanded keeps what is known. -/
theorem Sound.visit (h : Sound g l w.found (p :: w.stack)) (ht : t ∈ (g.state p).onEpsilon) :
    Sound g l (w.visit g t).found (p :: (w.visit g t).stack) := by
  unfold ClosureSearch.visit
  split
  · exact h
  · next hnew =>
    have hvalues : ∀ {q}, q ∈ (w.found.insert (g.state t).id t).values ↔
        q ∈ w.found.values ∨ q = t := by
      intro q
      refine h.keyed.mem_values_insert fun r hr hid => absurd ?_ hnew
      rw [← hid, ← IdMap.find?_isSome_iff, h.keyed.mem_values_iff.1 hr]
      rfl
    obtain ⟨s, hs, hsp⟩ := h.reached p (h.waiting p List.mem_cons_self)
    refine ⟨h.keyed.insert t, ?_, ?_, ?_, ?_⟩
    · intro r hr
      rcases hvalues.1 hr with hr | rfl
      · exact h.reached r hr
      · exact ⟨s, hs, hsp.step ht⟩
    · intro s hs
      exact IdMap.mem_insert.2 (Or.inl (h.covers s hs))
    · intro r hr
      simp only [List.mem_cons] at hr
      rcases hr with rfl | rfl | hr
      · exact hvalues.2 (Or.inl (h.waiting r List.mem_cons_self))
      · exact hvalues.2 (Or.inr rfl)
      · exact hvalues.2 (Or.inl (h.waiting r (List.mem_cons_of_mem _ hr)))
    · intro r hr
      rcases hvalues.1 hr with hr | rfl
      · rcases h.closed r hr with htodo | hdone
        · simp only [List.mem_cons] at htodo ⊢
          exact Or.inl (htodo.imp_right Or.inr)
        · exact Or.inr fun q hq => IdMap.mem_insert.2 (Or.inl (hdone q hq))
      · exact Or.inl (by simp)

/-- After its targets have been noted the state `p` has nothing left to find. -/
theorem Sound.foldl_visit {ts : List Ref} (h : Sound g l w.found (p :: w.stack))
    (hts : ∀ t ∈ ts, t ∈ (g.state p).onEpsilon) :
    Sound g l (ts.foldl (ClosureSearch.visit g) w).found
        (p :: (ts.foldl (ClosureSearch.visit g) w).stack) ∧
      ∀ i, i ∈ w.found ∨ i ∈ ts.map (fun t => (g.state t).id) →
        i ∈ (ts.foldl (ClosureSearch.visit g) w).found := by
  induction ts generalizing w with
  | nil => exact ⟨h, by simp⟩
  | cons t ts ih =>
    obtain ⟨hsound, hfound⟩ := ih (h.visit (hts t List.mem_cons_self))
      fun q hq => hts q (List.mem_cons_of_mem _ hq)
    refine ⟨hsound, fun i hi => hfound i ?_⟩
    simp only [List.map_cons, List.mem_cons] at hi
    rw [mem_found_visit]
    exact or_assoc.2 hi

/-- Expanding a state settles it. -/
theorem Sound.expand (h : Sound g l w.found (p :: w.stack)) :
    Sound g l (w.expand g p).found (w.expand g p).stack := by
  obtain ⟨hsound, hfound⟩ := h.foldl_visit fun _ ht => ht
  refine ⟨hsound.keyed, hsound.reached, hsound.covers, ?_, ?_⟩
  · exact fun r hr => hsound.waiting r (List.mem_cons_of_mem _ hr)
  · intro r hr
    rcases hsound.closed r hr with htodo | hdone
    · rcases List.mem_cons.1 htodo with rfl | htodo
      · exact Or.inr fun t ht => hfound _ (Or.inr (List.mem_map.2 ⟨t, ht, rfl⟩))
      · exact Or.inl htodo
    · exact Or.inr hdone

/-- When the search is over every found state is settled. -/
theorem Sound.run (h : Sound g l w.found w.stack) : Sound g l (ClosureSearch.run g w) [] := by
  fun_induction ClosureSearch.run g w with
  | case1 w hstack => rwa [hstack] at h
  | case2 w r rest hstack ih =>
    rw [hstack] at h
    exact ih (Sound.expand (w := { w with stack := rest }) h)

end ClosureSearch

namespace Graph

variable {g : Graph} {l : List Ref} {t : Ref}

theorem foldl_insert_spec {m : IdMap} (hm : m.Keyed g) (l : List Ref) :
    let m' := l.foldl (fun m r => m.insert (g.state r).id r) m
    m'.Keyed g ∧ (∀ r ∈ m'.values, r ∈ m.values ∨ r ∈ l) ∧
      ∀ i, i ∈ m ∨ i ∈ l.map (fun s => (g.state s).id) → i ∈ m' := by
  induction l generalizing m with
  | nil => exact ⟨hm, by simp, by simp⟩
  | cons s l ih =>
    obtain ⟨hkeyed, hvalues, hfound⟩ := ih (hm.insert s)
    refine ⟨hkeyed, fun r hr => ?_, fun i hi => hfound i ?_⟩
    · rcases hvalues r hr with hr | hr
      · rcases IdMap.mem_values_of_mem_values_insert hr with hr | rfl
        · exact Or.inl hr
        · exact Or.inr List.mem_cons_self
      · exact Or.inr (List.mem_cons_of_mem _ hr)
    · simp only [List.map_cons, List.mem_cons] at hi
      rw [IdMap.mem_insert]
      exact or_assoc.2 hi

/-- The given states by id: each under its own id, and an id for each of them. -/
theorem byId_spec (g : Graph) (l : List Ref) :
    (g.byId l).Keyed g ∧ (∀ r ∈ (g.byId l).values, r ∈ l) ∧
      ∀ s ∈ l, (g.state s).id ∈ g.byId l := by
  obtain ⟨hkeyed, hvalues, hfound⟩ := foldl_insert_spec (g := g) .empty l
  exact ⟨hkeyed, fun r hr => (hvalues r hr).resolve_left (by simp),
    fun s hs => hfound _ (Or.inr (List.mem_map.2 ⟨s, hs, rfl⟩))⟩

/-- The table from which the epsilon closure is read is settled. -/
theorem exists_sound_epsilonClosure (g : Graph) (l : List Ref) :
    ∃ found : IdMap, g.epsilonClosure l = found.values ∧ ClosureSearch.Sound g l found [] := by
  obtain ⟨hkeyed, hvalues, hcovers⟩ := g.byId_spec l
  refine ⟨_, rfl, ClosureSearch.Sound.run ⟨hkeyed, ?_, hcovers, ?_, ?_⟩⟩
  · exact fun r hr => ⟨r, hvalues r hr, .refl⟩
  · exact fun r hr => List.mem_reverse.1 hr
  · exact fun r hr => Or.inl (List.mem_reverse.2 hr)

/-- Where ids tell the states beyond the given ones apart, the closure is exactly those states. -/
theorem mem_epsilonClosure
    (hd : ∀ r t, (∃ s ∈ l, g.EpsilonReaches s r) → (∃ s ∈ l, g.EpsilonReaches s t) →
      (g.state r).id = (g.state t).id → r = t) :
    t ∈ g.epsilonClosure l ↔ ∃ s ∈ l, g.EpsilonReaches s t := by
  obtain ⟨found, hclosure, hsound⟩ := g.exists_sound_epsilonClosure l
  rw [hclosure]
  have hmem : ∀ q, (∃ s ∈ l, g.EpsilonReaches s q) → (g.state q).id ∈ found →
      q ∈ found.values := by
    intro q hq hid
    obtain ⟨r, hr⟩ := Option.isSome_iff_exists.1 (IdMap.find?_isSome_iff.2 hid)
    have hvalue : r ∈ found.values := IdMap.mem_values.2 ⟨_, hr⟩
    rwa [hd q r hq (hsound.reached r hvalue) (hsound.keyed hr).symm]
  constructor
  · exact hsound.reached t
  · rintro ⟨s, hs, hst⟩
    induction hst with
    | refl => exact hmem s ⟨s, hs, .refl⟩ (hsound.covers s hs)
    | @step r t hsr edge ih =>
      apply hmem t ⟨s, hs, hsr.step edge⟩
      exact (hsound.closed r ih).resolve_left (by simp) t edge

end Graph

end EpsilonNfa
