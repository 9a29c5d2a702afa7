import EpsilonNfa.Graph.Unvisited

/-!
# Breadth-first traversal

A traversal is a value that can be suspended: it gives one state at each step, and the graph may
change between two steps. The edges of a state are read at the step after the one that gave it.

## Main definitions

* `BreadthFirst`: a suspended traversal.
* `BreadthFirst.next?`: its next state, with the traversal suspended there.
* `Graph.breadthFirst`: all states of a traversal that nothing interrupts.
-/

namespace EpsilonNfa

/-- A breadth-first traversal between two of its steps. -/
structure BreadthFirst where
  /-- States that were found and are still to be looked at, first come first. -/
  queue : List Ref
  /-- The ids of the states given so far, latest first. -/
  visited : List Int := []
  /-- The state given last, whose edges are still to be read. -/
  last : Option Ref := none
deriving Repr

namespace BreadthFirst

def startAt (start : Ref) : BreadthFirst :=
  { queue := [start] }

/-- The queue after the edges of the state given last have been read. -/
def pending (w : BreadthFirst) (g : Graph) : List Ref :=
  w.queue ++ (w.last.map fun r => (g.state r).targets).getD []

/-- The next state whose id was not given before. -/
def next? (w : BreadthFirst) (g : Graph) : Option (Ref × BreadthFirst) :=
  match (w.pending g).dropWhile fun r => (g.state r).id ∈ w.visited with
  | [] => none
  | r :: rest =>
    some (r, { queue := rest, visited := (g.state r).id :: w.visited, last := some r })

/-- An upper bound on the steps that are left: states waiting, edges still to be read of the state
given last, and edges of the states that were not given. -/
def work (w : BreadthFirst) (g : Graph) : Nat :=
  (w.pending g).length + g.outDegree (g.unvisited w.visited)

/-- What a step says about the traversal before and after it. -/
theorem next?_eq_some_iff {w w' : BreadthFirst} {g : Graph} {r : Ref} :
    w.next? g = some (r, w') ↔
      ∃ skipped rest, w.pending g = skipped ++ r :: rest ∧
        (∀ q ∈ skipped, (g.state q).id ∈ w.visited) ∧ (g.state r).id ∉ w.visited ∧
        w' = { queue := rest, visited := (g.state r).id :: w.visited, last := some r } := by
  unfold next?
  generalize w.pending g = queue
  constructor
  · intro h
    split at h
    · cases h
    · next q rest hdrop =>
      cases h
      refine ⟨queue.takeWhile fun q => (g.state q).id ∈ w.visited, rest, ?_, ?_, ?_, rfl⟩
      · rw [← hdrop, List.takeWhile_append_dropWhile]
      · intro q hq
        have hall := List.all_takeWhile (p := fun q => decide ((g.state q).id ∈ w.visited))
          (l := queue)
        simpa using List.all_eq_true.1 hall q hq
      · have hhead := List.head?_dropWhile_not
          (fun q => decide ((g.state q).id ∈ w.visited)) queue
        simpa [hdrop] using hhead
  · rintro ⟨skipped, rest, rfl, hskip, hnew, rfl⟩
    have hdrop : (skipped ++ r :: rest).dropWhile
        (fun q => decide ((g.state q).id ∈ w.visited)) = r :: rest := by
      rw [List.dropWhile_append_of_pos (by simpa using hskip)]
      simp [hnew]
    rw [hdrop]

/-- Every step leaves less work. -/
theorem work_lt_of_next? {w w' : BreadthFirst} {g : Graph} {r : Ref}
    (h : w.next? g = some (r, w')) : w'.work g < w.work g := by
  obtain ⟨skipped, rest, hpending, -, hnew, rfl⟩ := next?_eq_some_iff.1 h
  have hpay := g.outDegree_unvisited_cons_add_le hnew
  have hlen : (w.pending g).length = skipped.length + (rest.length + 1) := by
    rw [hpending]; simp
  simp only [work, hlen]
  simp only [pending, Option.map_some, Option.getD_some, List.length_append]
  omega

/-- The states that a traversal still gives if nothing changes the graph. -/
def toList (w : BreadthFirst) (g : Graph) : List Ref :=
  match _ : w.next? g with
  | none => []
  | some (r, w') => r :: w'.toList g
termination_by w.work g
decreasing_by exact work_lt_of_next? (by assumption)

end BreadthFirst

/-- The states reachable from `start` in breadth-first order, one for each id. -/
def Graph.breadthFirst (g : Graph) (start : Ref) : List Ref :=
  (BreadthFirst.startAt start).toList g

end EpsilonNfa
