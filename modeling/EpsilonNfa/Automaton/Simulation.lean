import EpsilonNfa.Automaton.Basic
import EpsilonNfa.Graph.EpsilonClosure

/-!
# Simulation

Reading words with the cursor of an automaton. A letter moves the cursor to the targets of that
letter from every state of the epsilon closure, one target for each id. Only a symbol that cannot
key a table makes a step fail, and only if there is a state to look it up in; the cursor then stays
where it was.

## Main definitions

* `Automaton.step`, `Automaton.isAccepting`: one letter, and the verdict at the cursor.
* `Automaton.run`: a whole word from the start, with the verdict at its end.
* `Automaton.prefixVerdicts`: a whole word from the start, with the verdict at each of its prefixes.
* `PrefixWalk`: the same, suspended between two verdicts.
-/

namespace EpsilonNfa

namespace Graph

/-- Notes the target of a letter from one state. -/
def noteTarget (g : Graph) (x : Symbol) (found : IdMap) (r : Ref) : Except Error IdMap := do
  match ← (g.state r).onSymbol.lookup x with
  | some t => return found.insert (g.state t).id t
  | none => return found

/-- The targets of a letter from the epsilon closure of the given states, one for each id. -/
def step (g : Graph) (l : List Ref) (x : Symbol) : Except Error (List Ref) := do
  let found ← (g.epsilonClosure l).foldlM (g.noteTarget x) ∅
  return found.values

/-- Whether the epsilon closure of the given states holds a final one. -/
def acceptsAt (g : Graph) (l : List Ref) : Bool :=
  (g.epsilonClosure l).any fun r => (g.state r).isFinal

end Graph

namespace Automaton

variable (g : Graph)

/-- The automaton after one more letter. -/
def step (a : Automaton) (x : Symbol) : Except Error Automaton := do
  return { a with current := ← g.step a.current x }

/-- Whether the word read so far is accepted. -/
def isAccepting (a : Automaton) : Bool :=
  g.acceptsAt a.current

/-- Reads letters until one fails, and tells whether all were read. -/
def feed (a : Automaton) : List Symbol → Automaton × Except Error Unit
  | [] => (a, .ok ())
  | x :: word =>
    match a.step g x with
    | .ok next => next.feed word
    | .error e => (a, .error e)

/-- Reads a word from the start. -/
def run (a : Automaton) (word : List Symbol) : Automaton × Except Error Bool :=
  match a.reset.feed g word with
  | (a, .ok ()) => (a, .ok (a.isAccepting g))
  | (a, .error e) => (a, .error e)

/-- Whether a word is accepted from the start. The cursor plays no part in the answer. -/
def accepts (a : Automaton) (word : List Symbol) : Except Error Bool :=
  ((Automaton.ofStates a.start a.stop a.ids).run g word).2

/-- Reads letters until one fails, with the verdict after each. -/
def verdictsAfter (a : Automaton) : List Symbol → Automaton × Except Error (List Bool)
  | [] => (a, .ok [])
  | x :: word =>
    match a.step g x with
    | .error e => (a, .error e)
    | .ok next =>
      match next.verdictsAfter word with
      | (last, verdicts) => (last, verdicts.map (next.isAccepting g :: ·))

/-- Reads a word from the start, with the verdict at each prefix, the empty one first. -/
def prefixVerdicts (a : Automaton) (word : List Symbol) : Automaton × Except Error (List Bool) :=
  match a.reset.verdictsAfter g word with
  | (last, verdicts) => (last, verdicts.map (a.reset.isAccepting g :: ·))

end Automaton

/-- The verdicts at the prefixes of a word, between two of them. All walks over one automaton move
its one cursor, and so does everyone else. -/
inductive PrefixWalk where
  /-- No verdict has been given; the first will reset the cursor. -/
  | fresh (word : List Symbol)
  /-- The letters still to be read. -/
  | reading (rest : List Symbol)
  /-- All verdicts have been given, or a letter has failed. -/
  | finished
deriving Repr

namespace PrefixWalk

/-- The next verdict, or nothing after the last one. -/
def next? (g : Graph) (a : Automaton) :
    PrefixWalk → Automaton × PrefixWalk × Except Error (Option Bool)
  | .fresh word => (a.reset, .reading word, .ok (some (a.reset.isAccepting g)))
  | .reading [] => (a, .finished, .ok none)
  | .reading (x :: rest) =>
    match a.step g x with
    | .ok next => (next, .reading rest, .ok (some (next.isAccepting g)))
    | .error e => (a, .finished, .error e)
  | .finished => (a, .finished, .ok none)

end PrefixWalk

end EpsilonNfa
