import EpsilonNfa.Graph.Basic

/-!
# What a traversal has left to visit

Every traversal marks ids and follows edges, so it ends because two numbers go down: the states
whose ids are unmarked, and the edges that leave them. Both are counted over states and not over
ids, and marking one id may settle several states at once.
-/

namespace EpsilonNfa.Graph

/-- The states whose ids are not among the marked ones. -/
def unvisited (g : Graph) (marked : List Int) : List Ref :=
  g.refs.filter fun r => (g.state r).id ∉ marked

/-- The number of edges that leave the states of a list. -/
def outDegree (g : Graph) (l : List Ref) : Nat :=
  (l.flatMap fun r => (g.state r).targets).length

variable {g : Graph} {marked marked' : List Int} {r : Ref}

theorem mem_unvisited : r ∈ g.unvisited marked ↔ r ∈ g ∧ (g.state r).id ∉ marked := by
  simp [unvisited]

/-- Marking more ids filters the states that were left. -/
theorem unvisited_eq_filter (hsub : ∀ i ∈ marked, i ∈ marked') :
    g.unvisited marked' = (g.unvisited marked).filter fun r => (g.state r).id ∉ marked' := by
  simp only [unvisited, List.filter_filter]
  refine List.filter_congr fun r _ => ?_
  by_cases h : (g.state r).id ∈ marked'
  · simp [h]
  · have : (g.state r).id ∉ marked := fun hm => h (hsub _ hm)
    simp [h, this]

theorem length_flatMap_filter_le {α β : Type} (f : α → List β) (p : α → Bool) (l : List α) :
    ((l.filter p).flatMap f).length ≤ (l.flatMap f).length := by
  induction l with
  | nil => simp
  | cons b l ih =>
    by_cases hb : p b = true
    · simp only [List.filter_cons, hb, if_true, List.flatMap_cons, List.length_append]
      omega
    · simp only [List.filter_cons, hb, List.flatMap_cons, List.length_append]
      exact Nat.le_add_left_of_le ih

/-- A filter drops what a member that it refuses contributes. -/
theorem length_flatMap_filter_add_le {α β : Type} (f : α → List β) (p : α → Bool) {l : List α}
    {a : α} (ha : a ∈ l) (hp : p a = false) :
    ((l.filter p).flatMap f).length + (f a).length ≤ (l.flatMap f).length := by
  induction l with
  | nil => cases ha
  | cons b l ih =>
    rcases List.mem_cons.1 ha with rfl | ha
    · have hle := length_flatMap_filter_le f p l
      simp only [List.filter_cons, hp, List.flatMap_cons, List.length_append]
      simpa [Nat.add_comm] using hle
    · have ih := ih ha
      by_cases hb : p b = true
      · simp only [List.filter_cons, hb, if_true, List.flatMap_cons, List.length_append]
        omega
      · simp only [List.filter_cons, hb, List.flatMap_cons, List.length_append]
        exact Nat.le_add_left_of_le ih

/-- Marking the id of a state that was left leaves fewer states. -/
theorem length_unvisited_lt (hsub : ∀ i ∈ marked, i ∈ marked') (hr : r ∈ g)
    (hbefore : (g.state r).id ∉ marked) (hafter : (g.state r).id ∈ marked') :
    (g.unvisited marked').length < (g.unvisited marked).length := by
  rw [unvisited_eq_filter hsub, List.length_filter_lt_length_iff_exists]
  exact ⟨r, mem_unvisited.2 ⟨hr, hbefore⟩, by simpa using hafter⟩

/-- Marking the id of a state pays for following its edges. -/
theorem outDegree_unvisited_add_le (hsub : ∀ i ∈ marked, i ∈ marked')
    (hbefore : (g.state r).id ∉ marked) (hafter : (g.state r).id ∈ marked') :
    g.outDegree (g.unvisited marked') + (g.state r).targets.length ≤
      g.outDegree (g.unvisited marked) := by
  rw [unvisited_eq_filter hsub]
  by_cases hr : r ∈ g
  · exact length_flatMap_filter_add_le _ _ (mem_unvisited.2 ⟨hr, hbefore⟩) (by simpa using hafter)
  · have hnil : (g.state r).targets = [] := by rw [state_eq_default hr]; rfl
    rw [hnil]
    exact length_flatMap_filter_le ..

/-- Marking the id of one state pays for following its edges. -/
theorem outDegree_unvisited_cons_add_le (g : Graph) {marked : List Int} {r : Ref}
    (h : (g.state r).id ∉ marked) :
    g.outDegree (g.unvisited ((g.state r).id :: marked)) + (g.state r).targets.length ≤
      g.outDegree (g.unvisited marked) :=
  outDegree_unvisited_add_le (fun _ hi => List.mem_cons_of_mem _ hi) h List.mem_cons_self

end EpsilonNfa.Graph
