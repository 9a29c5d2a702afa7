import EpsilonNfa.Graph.Basic

/-!
# Paths of a graph

What it means that one state lies below another, and that a path from one state to another reads a
word. Nothing here is computed: these relations say what traversals, closures and simulations are
about, and know states by reference and not by id.

## Main definitions

* `Graph.Reaches`: a path of edges of any kind.
* `Graph.EpsilonReaches`: a path of edges that read nothing.
* `Graph.Reads`: a path whose letters in order are a given word.
* `Graph.Accepts`: a path that reads a word and ends in a final state.
* `Graph.DistinctIds`: below a state, ids tell states apart.
-/

namespace EpsilonNfa.Graph

/-- `t` is `s` or lies beyond it along edges. -/
inductive Reaches (g : Graph) (s : Ref) : Ref → Prop
  | refl : Reaches g s s
  | step {r t : Ref} (h : Reaches g s r) (edge : t ∈ (g.state r).targets) : Reaches g s t

/-- `t` is `s` or lies beyond it along edges that read nothing. -/
inductive EpsilonReaches (g : Graph) (s : Ref) : Ref → Prop
  | refl : EpsilonReaches g s s
  | step {r t : Ref} (h : EpsilonReaches g s r) (edge : t ∈ (g.state r).onEpsilon) :
      EpsilonReaches g s t

/-- A path from the first state to the second reads the word: epsilon edges pass, and the letter of
every other edge is the same as the next one of the word. -/
inductive Reads (g : Graph) : Ref → List Symbol → Ref → Prop
  | nil (r : Ref) : Reads g r [] r
  | pass {r s t : Ref} {word : List Symbol} (edge : s ∈ (g.state r).onEpsilon)
      (rest : Reads g s word t) : Reads g r word t
  | letter {r s t : Ref} {x y : Symbol} {word : List Symbol}
      (edge : (x, s) ∈ (g.state r).onSymbol.entries) (same : x.Same y)
      (rest : Reads g s word t) : Reads g r (y :: word) t

/-- A path from `s` reads the word and ends in a final state. -/
def Accepts (g : Graph) (s : Ref) (word : List Symbol) : Prop :=
  ∃ t, g.Reads s word t ∧ (g.state t).isFinal = true

/-- No two states below `s` have one id. -/
def DistinctIds (g : Graph) (s : Ref) : Prop :=
  ∀ r t, g.Reaches s r → g.Reaches s t → (g.state r).id = (g.state t).id → r = t

variable {g : Graph} {r s t : Ref}

theorem Reaches.trans (h : g.Reaches r s) (h' : g.Reaches s t) : g.Reaches r t := by
  induction h' with
  | refl => exact h
  | step _ edge ih => exact ih.step edge

/-- Paths stay in the graph. -/
theorem Reaches.mem (h : g.Reaches s t) (hs : s ∈ g) : t ∈ g := by
  cases h with
  | refl => exact hs
  | step _ edge => exact mem_of_mem_targets edge

theorem EpsilonReaches.trans (h : g.EpsilonReaches r s) (h' : g.EpsilonReaches s t) :
    g.EpsilonReaches r t := by
  induction h' with
  | refl => exact h
  | step _ edge ih => exact ih.step edge

theorem EpsilonReaches.reaches (h : g.EpsilonReaches s t) : g.Reaches s t := by
  induction h with
  | refl => exact .refl
  | step _ edge ih => exact ih.step (List.mem_append_right _ edge)

/-- A path of epsilon edges reads the empty word. -/
theorem EpsilonReaches.reads (h : g.EpsilonReaches r s) {word : List Symbol}
    (h' : g.Reads s word t) : g.Reads r word t := by
  induction h with
  | refl => exact h'
  | step _ edge ih => exact ih (.pass edge h')

theorem Reads.append {u v : List Symbol} (h : g.Reads r u s) (h' : g.Reads s v t) :
    g.Reads r (u ++ v) t := by
  induction h with
  | nil => exact h'
  | pass edge _ ih => exact .pass edge (ih h')
  | letter edge same _ ih => exact .letter edge same (ih h')

theorem Reads.reaches {word : List Symbol} (h : g.Reads s word t) : g.Reaches s t := by
  induction h with
  | nil => exact .refl
  | pass edge _ ih => exact (Reaches.refl.step (List.mem_append_right _ edge)).trans ih
  | letter edge _ _ ih =>
    refine (Reaches.refl.step ?_).trans ih
    exact List.mem_append_left _ (List.mem_map.2 ⟨_, edge, rfl⟩)

end EpsilonNfa.Graph
