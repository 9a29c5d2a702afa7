import EpsilonNfa.Symbol.Text

/-!
# Errors

Why an operation on states, automata or sessions fails, with one constructor for each cause and the
wording in one place.
-/

namespace EpsilonNfa

/-- Why an operation fails. -/
inductive Error where
  /-- The state with this id has a transition on a symbol that is the same as this one. -/
  | duplicateTransition (id : Int) (symbol : Symbol)
  /-- No state that is reachable from the one with id `root` satisfies the named predicate. -/
  | noMatch (root : Int) (predicate : String)
  /-- No state that is reachable from the one with id `root` has this id. -/
  | unreachable (id root : Int)
  /-- A copy was asked for the state with this id, which lies outside the copied graph. -/
  | notCopied (id : Int)
  | epsilonLetter
  /-- A symbol that holds a list was used as the key of a table. -/
  | unhashable
  | emptyWord
  /-- A transition table grew while its entries were being walked. -/
  | changedDuringWalk
  | unknownState
  | unknownAutomaton
  /-- A command line lacks even the name of the program. -/
  | missingProgramName
deriving DecidableEq, Repr

namespace Error

def message : Error → String
  | .duplicateTransition id symbol =>
    s!"state {id} already has a transition on {symbol.literal}"
  | .noMatch root predicate => s!"no state reachable from {root} matches {predicate}"
  | .unreachable id root => s!"state {id} is not reachable from {root}"
  | .notCopied id => s!"state {id} was not copied"
  | .epsilonLetter => "from_symbol needs a symbol, not epsilon."
  | .unhashable => "unhashable type: 'list'"
  | .emptyWord => "reduce() of empty iterable with no initial value"
  | .changedDuringWalk => "dictionary changed size during iteration"
  | .unknownState => "no such state"
  | .unknownAutomaton => "no such automaton"
  | .missingProgramName => "list index out of range"

instance : ToString Error := ⟨message⟩

/-- Whether the failure is that a state was not found. -/
def isNotFound : Error → Bool
  | .noMatch .. | .unreachable .. | .notCopied _ => true
  | _ => false

end Error

end EpsilonNfa
