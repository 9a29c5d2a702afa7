import EpsilonNfa.Graph.Unvisited

/-!
# States by id

A table from ids to states that remembers the order in which its ids were first inserted.
Inserting an id again replaces its state and keeps its place.
-/

namespace EpsilonNfa

/-- States by id, in the order in which the ids were first inserted. -/
@[ext] structure IdMap where
  /-- Ids with their states, first inserted first. -/
  entries : List (Int × Ref) := []
  /-- No id occurs twice. -/
  nodup_keys : (entries.map (·.1)).Nodup := by simp
deriving Repr

namespace IdMap

instance : EmptyCollection IdMap := ⟨{ entries := [] }⟩

instance : Inhabited IdMap := ⟨∅⟩

/-- The ids, first inserted first. -/
def keys (m : IdMap) : List Int :=
  m.entries.map (·.1)

/-- The states, in the order of their ids. -/
def values (m : IdMap) : List Ref :=
  m.entries.map (·.2)

instance : Membership Int IdMap where
  mem m id := id ∈ m.keys

instance (id : Int) (m : IdMap) : Decidable (id ∈ m) :=
  inferInstanceAs (Decidable (id ∈ m.keys))

/-- The state of an id. -/
def find? (m : IdMap) (id : Int) : Option Ref :=
  (m.entries.find? fun e => e.1 = id).map (·.2)

/-- The entry that takes the place of `e` when the state of `id` becomes `r`. -/
def updateEntry (id : Int) (r : Ref) (e : Int × Ref) : Int × Ref :=
  if e.1 = id then (id, r) else e

@[simp] theorem fst_updateEntry (id : Int) (r : Ref) (e : Int × Ref) :
    (updateEntry id r e).1 = e.1 := by
  unfold updateEntry
  split <;> simp_all

theorem map_fst_map_updateEntry (id : Int) (r : Ref) (l : List (Int × Ref)) :
    (l.map (updateEntry id r)).map (·.1) = l.map (·.1) := by
  simp [Function.comp_def]

/-- The table with `r` as the state of `id`. -/
def insert (m : IdMap) (id : Int) (r : Ref) : IdMap :=
  if known : id ∈ m then
    { entries := m.entries.map (updateEntry id r)
      nodup_keys := by rw [map_fst_map_updateEntry]; exact m.nodup_keys }
  else
    { entries := m.entries ++ [(id, r)]
      nodup_keys := by
        rw [List.map_append]
        refine List.nodup_append.2 ⟨m.nodup_keys, by simp, ?_⟩
        rintro i hi j hj rfl
        rw [List.map_singleton, List.mem_singleton] at hj
        have same : i = id := hj
        exact known (same ▸ hi) }

variable {m : IdMap} {id i : Int} {r : Ref}

@[simp] theorem mem_keys : id ∈ m.keys ↔ id ∈ m := Iff.rfl

@[simp] theorem keys_empty : (∅ : IdMap).keys = [] := rfl

theorem keys_insert_of_mem (h : id ∈ m) : (m.insert id r).keys = m.keys := by
  unfold insert keys
  rw [dif_pos h]
  exact map_fst_map_updateEntry ..

theorem keys_insert_of_not_mem (h : id ∉ m) : (m.insert id r).keys = m.keys ++ [id] := by
  simp [insert, keys, h]

@[simp] theorem mem_insert : i ∈ m.insert id r ↔ i ∈ m ∨ i = id := by
  rw [← mem_keys]
  by_cases h : id ∈ m
  · rw [keys_insert_of_mem h, mem_keys]
    constructor
    · exact Or.inl
    · rintro (hi | rfl)
      · exact hi
      · exact h
  · rw [keys_insert_of_not_mem h]
    simp

theorem find?_isSome_iff : (m.find? id).isSome ↔ id ∈ m := by
  rw [← mem_keys]
  simp [find?, keys]

theorem mem_iff_exists_find? : id ∈ m ↔ ∃ r, m.find? id = some r := by
  rw [← find?_isSome_iff, Option.isSome_iff_exists]

theorem find?_eq_none_iff : m.find? id = none ↔ id ∉ m := by
  rw [← find?_isSome_iff]
  simp

/-- Among entries with different ids, looking for the id of one finds that one. -/
theorem find?_fst_of_mem {l : List (Int × Ref)} (hl : (l.map (·.1)).Nodup) {e : Int × Ref}
    (he : e ∈ l) : (l.find? fun d => d.1 = e.1) = some e := by
  induction l with
  | nil => cases he
  | cons d l ih =>
    rw [List.map_cons, List.nodup_cons] at hl
    rcases List.mem_cons.1 he with rfl | he
    · simp
    · have hne : d.1 ≠ e.1 := fun h => hl.1 (h ▸ List.mem_map.2 ⟨e, he, rfl⟩)
      rw [List.find?_cons_of_neg (by simpa using hne)]
      exact ih hl.2 he

/-- An id has the state that its entry gives it. -/
theorem find?_eq_some_iff : m.find? id = some r ↔ (id, r) ∈ m.entries := by
  unfold find?
  constructor
  · intro h
    obtain ⟨e, he, rfl⟩ := Option.map_eq_some_iff.1 h
    have hid : e.1 = id := by simpa using List.find?_some he
    exact hid ▸ List.mem_of_find?_eq_some he
  · intro h
    rw [find?_fst_of_mem m.nodup_keys h]
    rfl

@[simp] theorem find?_insert_self : (m.insert id r).find? id = some r := by
  unfold insert
  split
  · next h =>
    obtain ⟨e, he, hid⟩ := List.mem_map.1 (mem_keys.2 h)
    unfold find?
    rw [List.find?_map]
    have hfound : (m.entries.find? fun e => decide (e.1 = id)).isSome := by
      simpa using ⟨e.2, by rw [← hid]; exact he⟩
    obtain ⟨d, hd⟩ := Option.isSome_iff_exists.1 hfound
    have hkey : d.1 = id := by simpa using List.find?_some hd
    simp only [Function.comp_def, fst_updateEntry, hd, Option.map_some]
    simp [updateEntry, hkey]
  · next h =>
    have hnone : m.entries.find? (fun e => decide (e.1 = id)) = none := by
      rw [List.find?_eq_none]
      intro e he hkey
      exact h (List.mem_map.2 ⟨e, he, by simpa using hkey⟩)
    simp [find?, List.find?_append, hnone]

theorem find?_insert_of_ne (h : i ≠ id) : (m.insert id r).find? i = m.find? i := by
  unfold insert
  split
  · unfold find?
    rw [List.find?_map]
    simp only [Function.comp_def, fst_updateEntry, Option.map_map]
    cases hd : m.entries.find? fun e => decide (e.1 = i) with
    | none => rfl
    | some d =>
      have hkey : d.1 = i := by simpa using List.find?_some hd
      have : d.1 ≠ id := hkey ▸ h
      simp [updateEntry, this]
  · simp [find?, List.find?_append, Ne.symm h]

/-- Inserting the id of a state of a graph leaves fewer states whose ids are missing. -/
theorem length_unvisited_insert_lt {g : Graph} {q : Ref} (hr : r ∈ g)
    (h : (g.state r).id ∉ m) :
    (g.unvisited (m.insert (g.state r).id q).keys).length < (g.unvisited m.keys).length :=
  Graph.length_unvisited_lt (fun _ hi => mem_insert.2 (Or.inl hi)) hr h
    (mem_insert.2 (Or.inr rfl))

end IdMap

end EpsilonNfa
