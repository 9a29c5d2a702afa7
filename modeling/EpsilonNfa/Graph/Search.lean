import EpsilonNfa.Graph.Unvisited

/-!
# Preorder search

A depth-first search for a state that passes a test. A state is tested before the states that its
edges lead to, and edges are followed in their order. The test is an action of any monad, so it may
count its calls, keep a record of them or fail.

## Main definitions

* `Graph.findFirst?`: the first state that passes a test.
* `Graph.find`: the same, with an error that names the test.
* `Graph.findById`: the state with a given id.
-/

namespace EpsilonNfa.Graph

variable {m : Type → Type} [Monad m]

/-- Tests the states of the stack and those that they lead to, except where an id is marked. -/
def searchFrom (g : Graph) (test : Ref → m Bool) (stack : List Ref) (marked : List Int) :
    m (Option Ref) :=
  match stack with
  | [] => pure none
  | r :: rest =>
    if _ : (g.state r).id ∈ marked then searchFrom g test rest marked
    else do
      if ← test r then pure (some r)
      else searchFrom g test ((g.state r).targets ++ rest) ((g.state r).id :: marked)
termination_by stack.length + g.outDegree (g.unvisited marked)
decreasing_by
  · simp
  -- what is put on the stack are edges of a state that was not marked and now is
  · have := g.outDegree_unvisited_cons_add_le (r := r) (by assumption)
    simp only [List.length_append, List.length_cons]
    omega

/-- The first state in preorder from `start` that passes the test. -/
def findFirst? (g : Graph) (start : Ref) (test : Ref → m Bool) : m (Option Ref) :=
  g.searchFrom test [start] []

/-- The first state in preorder from `start` that passes the test of the given name. -/
def find (g : Graph) (start : Ref) (name : String) (test : Ref → m Bool) :
    m (Except Error Ref) := do
  match ← g.findFirst? start test with
  | some r => pure (.ok r)
  | none => pure (.error (.noMatch (g.state start).id name))

/-- The first state in preorder from `start` that has the given id. -/
def findById (g : Graph) (start : Ref) (id : Int) : Except Error Ref :=
  match g.findFirst? (m := Id) start fun r => (g.state r).id == id with
  | some r => .ok r
  | none => .error (.unreachable id (g.state start).id)

end EpsilonNfa.Graph
