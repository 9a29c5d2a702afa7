import EpsilonNfa.Automaton.Basic
import EpsilonNfa.Copy
import EpsilonNfa.Graph.Search

/-!
# Building automata

Automata are built from single letters by concatenation. Every operation copies the automata that
it is given, so none of them changes or shares a state with its operands.

## Main definitions

* `Automaton.ofSymbol`: the automaton of one letter.
* `Automaton.copy`: an automaton with a graph and a cursor of its own.
* `Automaton.concat`: one automaton followed by another.
* `Automaton.ofWord`: the automaton of a word, one letter for each character.
-/

namespace EpsilonNfa.Automaton

/-- Two states with an edge on one letter. Epsilon is refused before any id is drawn. -/
def ofSymbol (x : Symbol) (ids : Option IdSource := none) : HeapM Automaton := do
  if x = .epsilon then throw .epsilonLetter
  let ids ← ids.getDM (HeapM.newSource)
  let start ← HeapM.newState ids
  let stop ← HeapM.newState ids true
  HeapM.connect start x stop
  return ofStates start stop ids

/-- The state below `root` that is the copy of `old`. -/
def resolve (root : Ref) (images : IdMap) (old : Ref) : HeapM Ref := do
  let g := (← get).graph
  match images.find? (g.state old).id with
  | none => throw (.notCopied (g.state old).id)
  | some new => g.findById root (g.state new).id

/-- An automaton of the same shape with states of its own, stopped at the same point of a word. -/
def copy (a : Automaton) : HeapM Automaton := do
  let (start, images) ← HeapM.copyGraph a.start ∅ a.ids
  let stop ← resolve start images a.stop
  let current ← a.current.mapM (resolve start images)
  return { start, stop, ids := a.ids, current := current.eraseDups }

/-- A copy of `a` followed by a copy of `b`: the stop of the first is no longer final and leads to
the start of the second without reading. -/
def concat (a b : Automaton) : HeapM Automaton := do
  let (aStart, aImages) ← HeapM.copyGraph a.start ∅ a.ids
  let (bStart, bImages) ← HeapM.copyGraph b.start ∅ a.ids
  let aStop ← resolve aStart aImages a.stop
  let bStop ← resolve bStart bImages b.stop
  HeapM.setFinal aStop false
  HeapM.connect aStop .epsilon bStart
  return ofStates aStart bStop a.ids

/-- The automaton of a word with at least one letter. -/
def ofWord (word : String) : HeapM Automaton := do
  let ids ← HeapM.newSource
  match ← (Symbol.ofText word).mapM (ofSymbol · ids) with
  | [] => throw .emptyWord
  | a :: rest => rest.foldlM concat a

end EpsilonNfa.Automaton
