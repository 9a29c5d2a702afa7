import EpsilonNfa.Export.Drawing
import EpsilonNfa.Export.Listing
import EpsilonNfa.Graph.Search
import EpsilonNfa.Session.Operation

/-!
# Inspections of a session

Whoever looks at the automata of a session and their graphs asks for verdicts, searches, traverses,
exports and copies. An inspection may make states and automata of its own and may fail. Traversals
are suspended between two of their items, so an inspection of one of them goes on where the last one
has stopped.

## Main definitions

* `Inspection`, `Inspection.perform`: the ways to look at a session and what they do.
* `Inspected`: a workspace with the traversals that are under way.
* `Event`, `Inspected.afterAll`: operations and inspections in any order, with what they leave
  behind.
-/

namespace EpsilonNfa

/-- Whether a walk moves the cursor of an automaton. -/
def Walk.movesCursor : Walk → Bool
  | .verdicts .. => true
  | _ => false

theorem Walk.movesCursor_next? {walk : Walk} (h : walk.movesCursor = false) (s : Session) :
    (walk.next? s).2.1.movesCursor = false := by
  cases walk with
  | states w =>
    rw [next?]
    split <;> rfl
  | edges w =>
    rw [next?]
    split <;> rfl
  | verdicts r w => cases h
  | finished => rfl

/-- A walk over states or edges. -/
structure Traversal where
  walk : Walk
  looks : walk.movesCursor = false

namespace Traversal

def statesFrom (start : Ref) : Traversal :=
  ⟨.statesFrom start, rfl⟩

def edgesFrom (start : Ref) : Traversal :=
  ⟨.edgesFrom start, rfl⟩

/-- The next item, or nothing at the end, with the traversal and the session after it. -/
def next? (s : Session) (t : Traversal) :
    Except Error (Option Walk.Item) × Traversal × Session :=
  ((t.walk.next? s).1, ⟨(t.walk.next? s).2.1, Walk.movesCursor_next? t.looks s⟩,
    (t.walk.next? s).2.2)

end Traversal

/-- A workspace with the traversals that are under way in it. -/
structure Inspected where
  workspace : Workspace := {}
  /-- The traversals, oldest first. -/
  traversals : List Traversal := []

/-- The ways to look at a session. -/
inductive Inspection where
  /-- Asks for the verdict on a word, with the cursor left alone. -/
  | accepts (r : AutomatonRef) (word : List Symbol)
  /-- Asks for the verdict at the cursor. -/
  | isAccepting (r : AutomatonRef)
  | epsilonClosure (states : List Ref)
  /-- Begins a traversal of the states below a state. -/
  | states (start : Ref)
  /-- Begins a traversal of the edges below a state. -/
  | edges (start : Ref)
  /-- Takes the next item of the traversal at a position. -/
  | next (position : Nat)
  /-- Searches for a state with a test that has a name, reads the graph and may fail. -/
  | find (start : Ref) (name : String) (test : Graph → Ref → Except Error Bool)
  | findById (start : Ref) (id : Int)
  | listing (r : AutomatonRef)
  | drawing (r : AutomatonRef)
  | copyGraph (start : Ref) (images : IdMap) (ids : Option IdSource)
  | copy (r : AutomatonRef)
  | concat (r q : AutomatonRef)

/-- What an inspection gives. -/
inductive Finding where
  | verdict (accepted : Bool)
  | states (l : List Ref)
  | traversal (position : Nat)
  /-- An item of a traversal, or nothing at its end. -/
  | item (next : Option Walk.Item)
  | state (r : Ref)
  | listing (l : Listing)
  | drawing (text : String)
  | copied (root : Ref) (images : IdMap)
  | automaton (r : AutomatonRef)

namespace SessionM

def epsilonClosure (states : List Ref) : SessionM (List Ref) :=
  return (← graph).epsilonClosure states

def find (start : Ref) (name : String) (test : Graph → Ref → Except Error Bool) : SessionM Ref := do
  let g ← graph
  let found : Except Error (Except Error Ref) := g.find start name (test g)
  (← found)

def findById (start : Ref) (id : Int) : SessionM Ref := do
  (← graph).findById start id

def listing (r : AutomatonRef) : SessionM Listing :=
  return (← graph).listing (← automaton r).start

def drawing (r : AutomatonRef) : SessionM String :=
  return (← automaton r).drawing (← graph)

end SessionM

namespace Inspected

/-- Does something in the session. -/
def apply {α : Type} (d : Inspected) (action : SessionM α) (finding : α → Finding) :
    Except Error Finding × Inspected :=
  match action.run.run d.workspace.session with
  | (outcome, session) =>
    (outcome.map finding, { d with workspace := { d.workspace with session } })

/-- Begins a traversal. -/
def begin (d : Inspected) (t : Traversal) : Except Error Finding × Inspected :=
  (.ok (.traversal d.traversals.length), { d with traversals := d.traversals ++ [t] })

/-- Takes the next item of a traversal. There is none where no traversal is. -/
def next (d : Inspected) (position : Nat) : Except Error Finding × Inspected :=
  match d.traversals[position]? with
  | none => (.ok (.item none), d)
  | some t =>
    match t.next? d.workspace.session with
    | (outcome, t, session) =>
      (outcome.map .item,
        { workspace := { d.workspace with session }, traversals := d.traversals.set position t })

end Inspected

/-- Performs an inspection, and gives what it finds with what it leaves behind. -/
def Inspection.perform (d : Inspected) : Inspection → Except Error Finding × Inspected
  | .accepts r word => d.apply (SessionM.accepts r word) .verdict
  | .isAccepting r => d.apply (SessionM.isAccepting r) .verdict
  | .epsilonClosure l => d.apply (SessionM.epsilonClosure l) .states
  | .states start => d.begin (.statesFrom start)
  | .edges start => d.begin (.edgesFrom start)
  | .next position => d.next position
  | .find start name test => d.apply (SessionM.find start name test) .state
  | .findById start id => d.apply (SessionM.findById start id) .state
  | .listing r => d.apply (SessionM.listing r) .listing
  | .drawing r => d.apply (SessionM.drawing r) .drawing
  | .copyGraph start images ids =>
    d.apply (SessionM.onHeap (HeapM.copyGraph start images ids)) fun p => .copied p.1 p.2
  | .copy r => d.apply (SessionM.copy r) .automaton
  | .concat r q => d.apply (SessionM.concat r q) .automaton

/-- What happens in a session that is looked at. -/
inductive Event where
  | operation (op : Operation)
  | inspection (i : Inspection)

namespace Event

def operation? : Event → Option Operation
  | .operation op => some op
  | .inspection _ => none

end Event

namespace Inspected

/-- What an event leaves behind, whether or not it fails. -/
def after (d : Inspected) : Event → Inspected
  | .operation op => { d with workspace := d.workspace.after op }
  | .inspection i => (i.perform d).2

/-- What events leave behind, one after another. -/
def afterAll (d : Inspected) (events : List Event) : Inspected :=
  events.foldl after d

end Inspected

end EpsilonNfa
