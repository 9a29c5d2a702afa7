import EpsilonNfa.IdMap

/-!
# Epsilon closure

The states that can be reached from given states without reading a letter. The search holds one
state for each id: of the given states with one id the last, and otherwise the first that it meets.
-/

namespace EpsilonNfa

/-- A search along epsilon edges. -/
structure ClosureSearch where
  found : IdMap
  /-- Found states whose epsilon edges are still to be followed, latest first. -/
  stack : List Ref

namespace ClosureSearch

/-- Notes a state, unless one with its id was found before. -/
def visit (g : Graph) (w : ClosureSearch) (r : Ref) : ClosureSearch :=
  if (g.state r).id ∈ w.found then w
  else { found := w.found.insert (g.state r).id r, stack := r :: w.stack }

/-- Notes the targets of the epsilon edges of `r`. -/
def expand (g : Graph) (w : ClosureSearch) (r : Ref) : ClosureSearch :=
  (g.state r).onEpsilon.foldl (visit g) w

/-- An upper bound on the states whose epsilon edges are still to be followed. -/
def work (g : Graph) (w : ClosureSearch) : Nat :=
  (g.unvisited w.found.keys).length + w.stack.length

theorem work_visit_le {g : Graph} {r : Ref} (hr : r ∈ g) (w : ClosureSearch) :
    (w.visit g r).work g ≤ w.work g := by
  unfold visit
  split
  · exact Nat.le_refl _
  · next hnew =>
    have hfewer := IdMap.length_unvisited_insert_lt (q := r) hr hnew
    simp only [work, List.length_cons]
    omega

theorem work_expand_le (g : Graph) (r : Ref) (w : ClosureSearch) :
    (w.expand g r).work g ≤ w.work g := by
  have hall : ∀ l : List Ref, (∀ t ∈ l, t ∈ g) → ∀ w : ClosureSearch,
      (l.foldl (visit g) w).work g ≤ w.work g := by
    intro l
    induction l with
    | nil => intro _ w; exact Nat.le_refl _
    | cons t l ih =>
      intro hl w
      exact Nat.le_trans (ih (fun q hq => hl q (List.mem_cons_of_mem _ hq)) (w.visit g t))
        (work_visit_le (hl t List.mem_cons_self) w)
  exact hall _ (fun t ht => Graph.mem_of_mem_onEpsilon ht) w

/-- Follows epsilon edges until every found state has been expanded. -/
def run (g : Graph) (w : ClosureSearch) : IdMap :=
  match _ : w.stack with
  | [] => w.found
  | r :: rest => run g ({ w with stack := rest }.expand g r)
termination_by w.work g
decreasing_by
  refine Nat.lt_of_le_of_lt (work_expand_le g r _) ?_
  simp [work, *]

end ClosureSearch

namespace Graph

/-- The given states by id, the last of those with one id in the place of the first. -/
def byId (g : Graph) (l : List Ref) : IdMap :=
  l.foldl (fun m r => m.insert (g.state r).id r) ∅

/-- The given states with all that epsilon edges lead to, one state for each id. -/
def epsilonClosure (g : Graph) (l : List Ref) : List Ref :=
  let seeds := g.byId l
  -- the last of the given states is expanded first
  (ClosureSearch.run g { found := seeds, stack := seeds.values.reverse }).values

end Graph

end EpsilonNfa
