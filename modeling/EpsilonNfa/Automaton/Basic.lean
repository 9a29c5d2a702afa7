import EpsilonNfa.Heap

/-!
# Automata

An automaton marks two states of a graph as its start and its stop, remembers the id source of its
states, and carries a *cursor*: the set of states that a simulation has reached.
-/

namespace EpsilonNfa

/-- A finite automaton over a graph. -/
structure Automaton where
  /-- The state where words begin. -/
  start : Ref
  /-- The accepting state by construction, where a concatenation continues. -/
  stop : Ref
  /-- The source from which copies of its states draw their ids. -/
  ids : IdSource
  /-- The cursor: the states reached so far, before epsilon edges are followed, none twice. -/
  current : List Ref
deriving DecidableEq, Repr, Inhabited

namespace Automaton

/-- The automaton from `start` to `stop` with its cursor at the start. -/
def ofStates (start stop : Ref) (ids : IdSource) : Automaton :=
  { start, stop, ids, current := [start] }

/-- The automaton with its cursor back at the start. -/
def reset (a : Automaton) : Automaton :=
  { a with current := [a.start] }

/-- The automaton with its cursor at the given states. -/
def setCurrent (a : Automaton) (states : List Ref) : Automaton :=
  { a with current := states.eraseDups }

def setStop (a : Automaton) (stop : Ref) : Automaton :=
  { a with stop }

end Automaton

end EpsilonNfa
