import EpsilonNfa.Proofs.Edits
import EpsilonNfa.Session.Inspection

/-!
# What inspections leave alone

Most inspections only read the session. Those that copy make states and automata beside the ones
that are there, and draw ids from the sources of these. So whether it finds something or fails, an
inspection leaves every state and every automaton as it was, cursors included, and no walk is moved
(`Inspection.extends_perform`).
-/

namespace EpsilonNfa

variable {α β : Type} {s s' s'' : Session} {r : AutomatonRef} {a : Automaton} {walk : Walk}

/-! ## Operations that only read -/

namespace SessionM

/-- The operation leaves the session as it is. -/
def Reads (m : SessionM α) : Prop :=
  ∀ s, (m.run.run s).2 = s

namespace Reads

theorem pure (x : α) : Reads (Pure.pure x) :=
  fun _ => rfl

theorem lift (m : Except Error α) : Reads (liftM m) :=
  fun s => by rw [run_liftM]

theorem graph : Reads graph :=
  fun _ => rfl

theorem automaton (r : AutomatonRef) : Reads (automaton r) := by
  intro s
  cases hr : s.automaton? r with
  | none => rw [run_automaton_of_eq_none hr]
  | some a => rw [run_automaton hr]

theorem bind {m : SessionM α} {f : α → SessionM β} (hm : Reads m) (hf : ∀ x, Reads (f x)) :
    Reads (m >>= f) := by
  intro s
  have hs := hm s
  rw [run_bind]
  generalize m.run.run s = result at hs ⊢
  rcases result with ⟨e | x, s'⟩
  · exact hs
  · exact (hf x s').trans hs

end Reads

theorem reads_accepts (r : AutomatonRef) (word : List Symbol) : Reads (accepts r word) :=
  .bind (.automaton r) fun _ => .bind .graph fun _ => .lift _

theorem reads_isAccepting (r : AutomatonRef) : Reads (isAccepting r) :=
  .bind (.automaton r) fun _ => .bind .graph fun _ => .pure _

theorem reads_epsilonClosure (l : List Ref) : Reads (epsilonClosure l) :=
  .bind .graph fun _ => .pure _

theorem reads_find (start : Ref) (name : String) (test : Graph → Ref → Except Error Bool) :
    Reads (find start name test) :=
  .bind .graph fun _ => .bind (.lift _) fun _ => .lift _

theorem reads_findById (start : Ref) (id : Int) : Reads (findById start id) :=
  .bind .graph fun _ => .lift _

theorem reads_listing (r : AutomatonRef) : Reads (listing r) :=
  .bind .graph fun _ => .bind (.automaton r) fun _ => .pure _

theorem reads_drawing (r : AutomatonRef) : Reads (drawing r) :=
  .bind (.automaton r) fun _ => .bind .graph fun _ => .pure _

end SessionM

/-- A walk that moves no cursor leaves the session as it is. -/
theorem Walk.session_next? (h : walk.movesCursor = false) (s : Session) :
    (walk.next? s).2.2 = s := by
  cases walk with
  | states w =>
    rw [next?]
    split <;> rfl
  | edges w =>
    rw [next?]
    split <;> rfl
  | verdicts r w => cases h
  | finished => rfl

theorem Session.Extends.of_reads {m : SessionM α} (hm : m.Reads) (s : Session) :
    s.Extends (m.run.run s).2 := by
  rw [hm s]
  exact refl s

/-! ## Inspections -/

/-- What is in the first workspace is in the second, and the walks are where they were. -/
structure Workspace.Extends (w w' : Workspace) : Prop where
  session : w.session.Extends w'.session
  walks_eq : w'.walks = w.walks

namespace Inspected

variable {d : Inspected}

theorem extends_apply {action : SessionM α}
    (haction : d.workspace.session.Extends (action.run.run d.workspace.session).2)
    (finding : α → Finding) : d.workspace.Extends (d.apply action finding).2.workspace :=
  ⟨haction, rfl⟩

theorem extends_next (d : Inspected) (position : Nat) :
    d.workspace.Extends (d.next position).2.workspace := by
  unfold next
  split
  · exact ⟨.refl _, rfl⟩
  · next t _ =>
    refine ⟨?_, rfl⟩
    show d.workspace.session.Extends (t.walk.next? d.workspace.session).2.2
    rw [Walk.session_next? t.looks]
    exact .refl _

end Inspected

/-- An inspection leaves everything as it is that was there, whether or not it fails. -/
theorem Inspection.extends_perform (d : Inspected) (i : Inspection) :
    d.workspace.Extends (i.perform d).2.workspace := by
  have hreads {α : Type} {m : SessionM α} (hm : m.Reads) (finding : α → Finding) :
      d.workspace.Extends (d.apply m finding).2.workspace :=
    Inspected.extends_apply (.of_reads hm _) finding
  cases i with
  | accepts r word => exact hreads (SessionM.reads_accepts r word) .verdict
  | isAccepting r => exact hreads (SessionM.reads_isAccepting r) .verdict
  | epsilonClosure l => exact hreads (SessionM.reads_epsilonClosure l) .states
  | states start => exact ⟨.refl _, rfl⟩
  | edges start => exact ⟨.refl _, rfl⟩
  | next position => exact d.extends_next position
  | find start name test => exact hreads (SessionM.reads_find start name test) .state
  | findById start id => exact hreads (SessionM.reads_findById start id) .state
  | listing r => exact hreads (SessionM.reads_listing r) .listing
  | drawing r => exact hreads (SessionM.reads_drawing r) .drawing
  | copyGraph start images ids =>
    exact Inspected.extends_apply (.onHeap (HeapM.grows_copyGraph _ start images ids)) _
  | copy r => exact Inspected.extends_apply (.copy _ r) .automaton
  | concat r q => exact Inspected.extends_apply (.concat _ r q) .automaton

end EpsilonNfa
