import EpsilonNfa.Automaton.Combinators
import EpsilonNfa.Automaton.Simulation

/-!
# Sessions

A session holds a heap and the automata that were made in it. Automata have an identity there: two
references to one automaton share its cursor, and whoever reads a word moves it for everyone.

`SessionM` is the monad of operations on a session. As on heaps, what an operation did before it
failed stays done.

## Main definitions

* `SessionM.build`: runs an operation that makes an automaton, and gives the automaton an identity.
* `SessionM.step`, `SessionM.runWord`, `SessionM.prefixVerdicts`: simulation on the shared cursor.
* `SessionM.copyAll`: copies of several automata, one for each automaton however often it is listed.
-/

namespace EpsilonNfa

/-- The identity of an automaton within its session. -/
structure AutomatonRef where
  /-- The place of the automaton among those of the session. -/
  index : Nat
deriving DecidableEq, Repr, Inhabited

/-- A heap with the automata that were made in it. -/
structure Session where
  heap : Heap := {}
  /-- The automata, oldest first. -/
  automata : Array Automaton := #[]
deriving Inhabited

/-- Operations on a session that may fail. -/
abbrev SessionM := ExceptT Error (StateM Session)

namespace Session

def graph (s : Session) : Graph :=
  s.heap.graph

/-- The automaton that a reference names. -/
def automaton? (s : Session) (r : AutomatonRef) : Option Automaton :=
  s.automata[r.index]?

end Session

namespace SessionM

/-- An operation on the heap of the session. -/
def onHeap {α : Type} (action : HeapM α) : SessionM α :=
  fun s =>
    match s with
    | { heap, automata } =>
      match action.run.run heap with
      | (outcome, heap) => (outcome, { heap, automata })

def graph : SessionM Graph :=
  return (← get).graph

/-- The automaton that a reference names. -/
def automaton (r : AutomatonRef) : SessionM Automaton := do
  match (← get).automaton? r with
  | some a => return a
  | none => throw .unknownAutomaton

/-- Puts an automaton in the place of the one that a reference names. -/
def setAutomaton (r : AutomatonRef) (a : Automaton) : SessionM Unit :=
  modify fun s => { s with automata := s.automata.setIfInBounds r.index a }

/-- Makes an automaton and gives it an identity. -/
def build (action : HeapM Automaton) : SessionM AutomatonRef := do
  let a ← onHeap action
  modifyGet fun s => (⟨s.automata.size⟩, { s with automata := s.automata.push a })

def ofSymbol (x : Symbol) (ids : Option IdSource := none) : SessionM AutomatonRef :=
  build (Automaton.ofSymbol x ids)

def ofWord (word : String) : SessionM AutomatonRef :=
  build (Automaton.ofWord word)

def concat (r q : AutomatonRef) : SessionM AutomatonRef := do
  build (Automaton.concat (← automaton r) (← automaton q))

def copy (r : AutomatonRef) : SessionM AutomatonRef := do
  build (Automaton.copy (← automaton r))

/-- Copies of automata in the order of the list. An automaton that was copied for an earlier place
has the same copy here. -/
def copyAll (l : List AutomatonRef) : SessionM (List AutomatonRef) :=
  go l []
where
  /-- Copies the rest of the list, given the automata copied so far with their copies. -/
  go : List AutomatonRef → List (AutomatonRef × AutomatonRef) → SessionM (List AutomatonRef)
    | [], _ => return []
    | r :: l, copies => do
      match copies.lookup r with
      | some c => return c :: (← go l copies)
      | none =>
        let c ← copy r
        return c :: (← go l ((r, c) :: copies))

def change (r : AutomatonRef) (f : Automaton → Automaton) : SessionM Unit := do
  setAutomaton r (f (← automaton r))

/-- Reads one letter, and gives the cursor after it. -/
def step (r : AutomatonRef) (x : Symbol) : SessionM (List Ref) := do
  let a ← (← automaton r).step (← graph) x
  setAutomaton r a
  return a.current

def isAccepting (r : AutomatonRef) : SessionM Bool := do
  return (← automaton r).isAccepting (← graph)

/-- A simulation that leaves the cursor where it ends, also when it fails. -/
def simulate {α : Type} (r : AutomatonRef)
    (simulation : Graph → Automaton → Automaton × Except Error α) : SessionM α := do
  let (a, outcome) := simulation (← graph) (← automaton r)
  setAutomaton r a
  outcome

def runWord (r : AutomatonRef) (word : List Symbol) : SessionM Bool :=
  simulate r fun g a => a.run g word

/-- Whether a word is accepted, with the cursor left alone. -/
def accepts (r : AutomatonRef) (word : List Symbol) : SessionM Bool := do
  (← automaton r).accepts (← graph) word

/-- Reads a word from the start, with the verdict at each prefix. -/
def prefixVerdicts (r : AutomatonRef) (word : List Symbol) : SessionM (List Bool) :=
  simulate r fun g a => a.prefixVerdicts g word

end SessionM

end EpsilonNfa
