import EpsilonNfa.Session.Walk

/-!
# Operations of a session

What can be done in a session, as data. A session with the walks over verdicts that are under way in
it is a system that takes one operation after another, in any order. An operation that fails leaves
behind what it has done before it failed, and the next one goes on from there.

## Main definitions

* `Workspace`: a session with its walks.
* `Operation`, `Operation.perform`: the operations and what they do.
* `Workspace.after`, `Workspace.afterAll`: what one operation leaves behind, and a list of them.
-/

namespace EpsilonNfa

/-- A session with the walks over verdicts that are under way in it. -/
structure Workspace where
  session : Session := {}
  /-- The walks, oldest first. -/
  walks : List Walk := []
deriving Inhabited

/-- What can be done in a session: states and automata are made, edges and finality change, and
words are read. -/
inductive Operation where
  | newSource (first : Int)
  | newState (ids : IdSource) (isFinal : Bool)
  | connect (s : Ref) (x : Symbol) (t : Ref)
  | setFinal (r : Ref) (isFinal : Bool)
  /-- Copies the graph below a state through a table of images. -/
  | copyGraph (start : Ref) (images : IdMap) (ids : Option IdSource)
  /-- Makes an automaton of states that exist. -/
  | automaton (start stop : Ref) (ids : IdSource)
  | ofSymbol (x : Symbol) (ids : Option IdSource)
  | concat (r q : AutomatonRef)
  | copy (r : AutomatonRef)
  | reset (r : AutomatonRef)
  | step (r : AutomatonRef) (x : Symbol)
  | run (r : AutomatonRef) (word : List Symbol)
  /-- Asks for the verdict at the cursor. -/
  | isAccepting (r : AutomatonRef)
  /-- Asks for the verdict on a word, with the cursor left alone. -/
  | accepts (r : AutomatonRef) (word : List Symbol)
  /-- Begins a walk over the verdicts at the prefixes of a word. -/
  | verdicts (r : AutomatonRef) (word : List Symbol)
  /-- Takes the next item of the walk at a position. -/
  | pull (position : Nat)
deriving Repr

/-- What an operation gives. -/
inductive Answer where
  /-- Nothing but what the operation has done. -/
  | done
  | source (ids : IdSource)
  | state (r : Ref)
  /-- The copy of a state, with the table of images after it. -/
  | copied (root : Ref) (images : IdMap)
  | automaton (r : AutomatonRef)
  | cursor (states : List Ref)
  | verdict (accepted : Bool)
  /-- An item of a walk, or nothing at its end. -/
  | item (next : Option Walk.Item)
deriving Repr

def Answer.verdict? : Answer → Option Bool
  | .verdict accepted => some accepted
  | .item (some (.verdict accepted)) => some accepted
  | _ => none

namespace Workspace

/-- Does something in the session of a workspace. -/
def apply {α : Type} (w : Workspace) (action : SessionM α) (answer : α → Answer) :
    Except Error Answer × Workspace :=
  match action.run.run w.session with
  | (outcome, session) => (outcome.map answer, { w with session })

/-- Takes the next item of a walk. There is none where no walk is. -/
def pull (w : Workspace) (position : Nat) : Except Error Answer × Workspace :=
  match w.walks[position]? with
  | none => (.ok (.item none), w)
  | some walk =>
    match walk.next? w.session with
    | (outcome, walk, session) =>
      (outcome.map .item, { session, walks := w.walks.set position walk })

end Workspace

/-- Performs an operation, and gives its answer with what it leaves behind. -/
def Operation.perform (w : Workspace) : Operation → Except Error Answer × Workspace
  | .newSource first => w.apply (SessionM.onHeap (HeapM.newSource first)) .source
  | .newState ids isFinal => w.apply (SessionM.onHeap (HeapM.newState ids isFinal)) .state
  | .connect s x t => w.apply (SessionM.onHeap (HeapM.connect s x t)) fun _ => .done
  | .setFinal r isFinal => w.apply (SessionM.onHeap (HeapM.setFinal r isFinal)) fun _ => .done
  | .copyGraph start images ids =>
    w.apply (SessionM.onHeap (HeapM.copyGraph start images ids)) fun p => .copied p.1 p.2
  | .automaton start stop ids =>
    w.apply (SessionM.build (return Automaton.ofStates start stop ids)) .automaton
  | .ofSymbol x ids => w.apply (SessionM.ofSymbol x ids) .automaton
  | .concat r q => w.apply (SessionM.concat r q) .automaton
  | .copy r => w.apply (SessionM.copy r) .automaton
  | .reset r => w.apply (SessionM.change r (·.reset)) fun _ => .done
  | .step r x => w.apply (SessionM.step r x) .cursor
  | .run r word => w.apply (SessionM.runWord r word) .verdict
  | .isAccepting r => w.apply (SessionM.isAccepting r) .verdict
  | .accepts r word => w.apply (SessionM.accepts r word) .verdict
  -- the cursor is left alone until the first pull
  | .verdicts r word => (.ok .done, { w with walks := w.walks ++ [.verdictsOf r word] })
  | .pull position => w.pull position

namespace Workspace

/-- What an operation leaves behind, whether it gives an answer or fails. -/
def after (w : Workspace) (op : Operation) : Workspace :=
  (op.perform w).2

/-- What operations leave behind, one after another. -/
def afterAll (w : Workspace) (ops : List Operation) : Workspace :=
  ops.foldl after w

@[simp] theorem afterAll_nil (w : Workspace) : w.afterAll [] = w := rfl

theorem afterAll_concat (w : Workspace) (ops : List Operation) (op : Operation) :
    w.afterAll (ops ++ [op]) = (w.afterAll ops).after op := by
  simp [afterAll]

end Workspace

end EpsilonNfa
