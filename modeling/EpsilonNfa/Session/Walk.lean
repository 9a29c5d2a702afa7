import EpsilonNfa.Graph.Edges
import EpsilonNfa.Session.Basic

/-!
# Walks in a session

A walk is an enumeration that is suspended between two of its items while the session goes on: the
states below a state, the edges below a state, or the verdicts of an automaton at the prefixes of a
word. A walk that has ended or failed has no further item.
-/

namespace EpsilonNfa

/-- An enumeration between two of its items. -/
inductive Walk where
  | states (w : BreadthFirst)
  | edges (w : EdgeWalk)
  | verdicts (a : AutomatonRef) (w : PrefixWalk)
  | finished
deriving Repr

inductive Walk.Item where
  | state (r : Ref)
  | edge (e : Edge)
  | verdict (accepted : Bool)
deriving DecidableEq, Repr

namespace Walk

def statesFrom (start : Ref) : Walk :=
  .states (.startAt start)

def edgesFrom (start : Ref) : Walk :=
  .edges (.startAt start)

/-- The verdicts of an automaton at the prefixes of a word. -/
def verdictsOf (a : AutomatonRef) (word : List Symbol) : Walk :=
  .verdicts a (.fresh word)

/-- The next item, or nothing at the end, with the walk and the session after it. -/
def next? (s : Session) : Walk → Except Error (Option Item) × Walk × Session
  | .states w =>
    match w.next? s.graph with
    | some (r, w) => (.ok (some (.state r)), .states w, s)
    | none => (.ok none, .finished, s)
  | .edges w =>
    match w.next? s.graph with
    | .ok (some (e, w)) => (.ok (some (.edge e)), .edges w, s)
    | .ok none => (.ok none, .finished, s)
    | .error e => (.error e, .finished, s)
  | .verdicts r w =>
    match s.automaton? r with
    | none => (.error .unknownAutomaton, .finished, s)
    | some a =>
      match PrefixWalk.next? s.graph a w with
      | (a, w, outcome) =>
        (outcome.map (·.map .verdict), .verdicts r w,
          { s with automata := s.automata.setIfInBounds r.index a })
  | .finished => (.ok none, .finished, s)

end Walk

end EpsilonNfa
