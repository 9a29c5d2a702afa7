import EpsilonNfa.Export.Numbering
import EpsilonNfa.Graph.Edges
import EpsilonNfa.Text.Document

/-!
# Listings

A listing is the graph below a state in terms of small numbers and labels: neither ids nor the
cursor of an automaton show in it. Numbers begin at one, which is the start.
-/

namespace EpsilonNfa

/-- An edge between numbered states. -/
structure Listing.Transition where
  source : Nat
  /-- The text on the edge, empty if it reads nothing. -/
  label : String
  target : Nat
deriving DecidableEq, Repr

/-- A graph in terms of numbers and labels. -/
structure Listing where
  /-- The numbers of the states, in increasing order. -/
  states : List Nat
  /-- The labels that read something, in the order of their code points, none twice. -/
  letters : List String
  /-- The edges, state by state. -/
  transitions : List Listing.Transition
  start : Nat
  /-- The numbers of the final states, in the order in which they were met. -/
  finals : List Nat
deriving DecidableEq, Repr

namespace Graph

/-- The numbers of states, in the order of the list, each with whether its state is final. -/
def numberStates (g : Graph) (l : List Ref) : StateM Numbering (List (Nat × Bool)) :=
  l.mapM fun r => return (← Numbering.number (g.state r).id, (g.state r).isFinal)

def numberEdge (g : Graph) (e : Edge) : StateM Numbering Listing.Transition := do
  let source ← Numbering.number (g.state e.source).id
  let target ← Numbering.number (g.state e.target).id
  return { source, label := e.label.label, target }

/-- The listing of the graph below `start`. -/
def listing (g : Graph) (start : Ref) : Listing :=
  let numbered : StateM Numbering Listing := do
    let first ← Numbering.number (g.state start).id
    let states ← g.numberStates (g.breadthFirst start)
    let transitions ← (g.edges start).mapM g.numberEdge
    return {
      states := (first :: states.map (·.1)).eraseDups.mergeSort
      letters := ((transitions.map (·.label)).filter (· ≠ "")).eraseDups.mergeSort
      transitions
      start := first
      finals := (states.filter (·.2)).map (·.1) }
  (numbered.run { first := 1 }).1

end Graph

namespace Listing

/-- The document of a number, which is written as a text. -/
def numberDocument (n : Nat) : Text.Document :=
  .text (toString n)

/-- The document of a transition: source, label and target. -/
def Transition.document (t : Transition) : Text.Document :=
  .list [numberDocument t.source, .text t.label, numberDocument t.target]

def document (l : Listing) : Text.Document :=
  .record [
    ("states", .list (l.states.map numberDocument)),
    ("letters", .list (l.letters.map .text)),
    ("transition_function", .list (l.transitions.map Transition.document)),
    ("start_states", .list [numberDocument l.start]),
    ("final_states", .list (l.finals.map numberDocument))]

end Listing

end EpsilonNfa
