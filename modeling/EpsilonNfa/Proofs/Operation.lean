import EpsilonNfa.Proofs.Interleaving
import EpsilonNfa.Session.Operation

/-!
# Operations on one cursor

The operations that read with an automaton touch that automaton and nothing else in the session.
What they do to it is said by `Operation.read` and `PrefixWalk.next?` about the automaton alone;
`Operation.perform_of_reader` and `Workspace.pull_of_verdicts` put it back into its session.
-/

namespace EpsilonNfa

variable {s : Session} {w : Workspace} {r : AutomatonRef} {a : Automaton}

theorem Session.automaton?_push (hr : s.automaton? r = some a) (heap : Heap) (b : Automaton) :
    Session.automaton? { heap, automata := s.automata.push b } r = some a := by
  obtain ⟨hlt, hget⟩ := Array.getElem?_eq_some_iff.1 hr
  show (s.automata.push b)[r.index]? = some a
  rw [Array.getElem?_push_lt hlt, hget]

namespace SessionM

theorem run_automaton (hr : s.automaton? r = some a) : (automaton r).run.run s = (.ok a, s) :=
  returns_automaton hr

theorem run_automaton_of_eq_none (hr : s.automaton? r = none) :
    (automaton r).run.run s = (.error .unknownAutomaton, s) := by
  unfold automaton
  simp only [run_bind, run_get, hr]
  rfl

theorem run_graph (s : Session) : graph.run.run s = (.ok s.graph, s) :=
  returns_graph s

theorem run_change (hr : s.automaton? r = some a) (f : Automaton → Automaton) :
    (change r f).run.run s = (.ok ⟨⟩, s.put r (f a)) := by
  unfold change
  simp only [run_bind, run_automaton hr]
  rfl

/-- A letter that fails leaves the automaton where it was. -/
theorem run_step (hr : s.automaton? r = some a) (x : Symbol) :
    (step r x).run.run s = match a.step s.graph x with
      | .ok a' => (.ok a'.current, s.put r a')
      | .error e => (.error e, s) := by
  unfold step
  simp only [run_bind, run_automaton hr, run_graph, run_liftM]
  cases a.step s.graph x <;> rfl

/-- A simulation leaves the automaton where it ends, whatever its outcome. -/
theorem run_simulate {α : Type} (hr : s.automaton? r = some a)
    (simulation : Graph → Automaton → Automaton × Except Error α) :
    (simulate r simulation).run.run s =
      ((simulation s.graph a).2, s.put r (simulation s.graph a).1) := by
  unfold simulate
  simp only [run_bind, run_automaton hr, run_graph]
  exact run_liftM ..

theorem run_isAccepting (hr : s.automaton? r = some a) :
    (isAccepting r).run.run s = (.ok (a.isAccepting s.graph), s) :=
  returns_isAccepting hr

theorem run_accepts (hr : s.automaton? r = some a) (word : List Symbol) :
    (accepts r word).run.run s = (a.accepts s.graph word, s) := by
  unfold accepts
  simp only [run_bind, run_automaton hr, run_graph, run_liftM]

/-- A copy builds an automaton, if the one to copy is there. -/
theorem run_copy_or (s : Session) (r : AutomatonRef) :
    (∃ a, s.automaton? r = some a ∧ (copy r).run.run s = (build a.copy).run.run s) ∨
      (copy r).run.run s = (.error .unknownAutomaton, s) := by
  unfold copy
  cases hr : s.automaton? r with
  | none => exact Or.inr (by simp only [run_bind, run_automaton_of_eq_none hr])
  | some a => exact Or.inl ⟨a, rfl, by simp only [run_bind, run_automaton hr]⟩

/-- A concatenation builds an automaton, if both operands are there. -/
theorem run_concat_or (s : Session) (r q : AutomatonRef) :
    (∃ a b, s.automaton? r = some a ∧ s.automaton? q = some b ∧
        (concat r q).run.run s = (build (a.concat b)).run.run s) ∨
      (concat r q).run.run s = (.error .unknownAutomaton, s) := by
  unfold concat
  cases hr : s.automaton? r with
  | none => exact Or.inr (by simp only [run_bind, run_automaton_of_eq_none hr])
  | some a =>
    cases hq : s.automaton? q with
    | none =>
      exact Or.inr (by simp only [run_bind, run_automaton hr, run_automaton_of_eq_none hq])
    | some b =>
      exact Or.inl ⟨a, b, rfl, rfl, by simp only [run_bind, run_automaton hr, run_automaton hq]⟩

end SessionM

namespace Operation

/-- The automaton that an operation reads with. -/
def reader? : Operation → Option AutomatonRef
  | .reset r | .step r _ | .run r _ | .isAccepting r | .accepts r _ => some r
  | _ => none

/-- What an operation that reads with an automaton does to it, and the answer. -/
def read (g : Graph) (a : Automaton) : Operation → Automaton × Except Error Answer
  | .reset _ => (a.reset, .ok .done)
  | .step _ x =>
    match a.step g x with
    | .ok a' => (a', .ok (.cursor a'.current))
    | .error e => (a, .error e)
  | .run _ word => ((a.run g word).1, (a.run g word).2.map .verdict)
  | .isAccepting _ => (a, .ok (.verdict (a.isAccepting g)))
  | .accepts _ word => (a, (a.accepts g word).map .verdict)
  | _ => (a, .ok .done)

theorem perform_of_reader {op : Operation} (hop : op.reader? = some r)
    (hr : w.session.automaton? r = some a) :
    op.perform w = ((op.read w.session.graph a).2,
      { w with session := w.session.put r (op.read w.session.graph a).1 }) := by
  cases op with
  | reset q =>
    cases hop
    simp only [perform, Workspace.apply, SessionM.run_change hr]
    rfl
  | step q x =>
    cases hop
    simp only [perform, Workspace.apply, SessionM.run_step hr, read]
    cases a.step w.session.graph x with
    | ok a' => rfl
    | error e =>
      rw [Session.put_self hr]
      rfl
  | run q word =>
    cases hop
    simp only [perform, Workspace.apply, SessionM.runWord, SessionM.run_simulate hr]
    rfl
  | isAccepting q =>
    cases hop
    simp only [perform, Workspace.apply, SessionM.run_isAccepting hr, read, Session.put_self hr]
    rfl
  | accepts q word =>
    cases hop
    simp only [perform, Workspace.apply, SessionM.run_accepts hr, read, Session.put_self hr]
  | _ => cases hop

theorem perform_pull (i : Nat) : (Operation.pull i).perform w = w.pull i := rfl

end Operation

namespace Workspace

theorem pull_of_getElem?_eq_none {i : Nat} (hi : w.walks[i]? = none) :
    w.pull i = (.ok (.item none), w) := by
  simp only [pull, hi]

/-- A pull of a walk over verdicts is a step of the walk with the automaton. -/
theorem pull_of_verdicts {i : Nat} {walk : PrefixWalk}
    (hi : w.walks[i]? = some (.verdicts r walk)) (hr : w.session.automaton? r = some a) :
    w.pull i =
      ((PrefixWalk.next? w.session.graph a walk).2.2.map fun v => .item (v.map .verdict),
        { session := w.session.put r (PrefixWalk.next? w.session.graph a walk).1
          walks := w.walks.set i (.verdicts r (PrefixWalk.next? w.session.graph a walk).2.1) }) := by
  simp only [pull, hi, Walk.next?, hr]
  cases (PrefixWalk.next? w.session.graph a walk).2.2 <;> rfl

end Workspace

end EpsilonNfa
