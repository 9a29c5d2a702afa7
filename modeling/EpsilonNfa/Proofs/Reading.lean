import EpsilonNfa.Proofs.Operation

/-!
# Operations that read

Operations that read with an automaton, whether or not they fail, move cursors and change nothing
else. Where a cursor begins below the start of its automaton it stays there, also when a letter
cannot be read and the rest of a word is left (`Automaton.MovesTo`).
-/

namespace EpsilonNfa

namespace Automaton

variable {g : Graph} {a a' a'' : Automaton} {x : Symbol}

/-- Ids tell the states below the start apart, and the cursor is among them. -/
structure Tracked (g : Graph) (a : Automaton) : Prop where
  distinctIds : g.DistinctIds a.start
  current : ∀ r ∈ a.current, g.Reaches a.start r

/-- The cursor of an automaton moves somewhere below its start. -/
def MovesTo (g : Graph) (a a' : Automaton) : Prop :=
  ∃ l, a' = { a with current := l } ∧ ∀ r ∈ l, g.Reaches a.start r

namespace MovesTo

theorem tracked (h : a.MovesTo g a') (ha : a.Tracked g) : a'.Tracked g := by
  obtain ⟨l, rfl, hl⟩ := h
  exact ⟨ha.distinctIds, hl⟩

theorem trans (h : a.MovesTo g a') (h' : a'.MovesTo g a'') : a.MovesTo g a'' := by
  obtain ⟨l, rfl, -⟩ := h
  obtain ⟨l', rfl, hl'⟩ := h'
  exact ⟨l', rfl, hl'⟩

theorem reset (g : Graph) (a : Automaton) : a.MovesTo g a.reset := by
  refine ⟨[a.start], rfl, fun r hr => ?_⟩
  rw [List.mem_singleton.1 hr]
  exact .refl

end MovesTo

namespace Tracked

theorem movesTo_self (ha : a.Tracked g) : a.MovesTo g a :=
  ⟨a.current, rfl, ha.current⟩

theorem step (ha : a.Tracked g) (h : a.step g x = .ok a') : a.MovesTo g a' := by
  obtain ⟨l, hstep, rfl⟩ := step_eq_ok_iff.1 h
  refine ⟨l, rfl, fun q hq => ?_⟩
  obtain ⟨s, hs, hsq⟩ := (Graph.mem_step ha.distinctIds ha.current hstep).1 hq
  exact (ha.current s hs).trans hsq.reaches

theorem feed (ha : a.Tracked g) (word : List Symbol) : a.MovesTo g (a.feed g word).1 := by
  induction word generalizing a with
  | nil => exact ha.movesTo_self
  | cons x word ih =>
    rw [Automaton.feed]
    cases hstep : a.step g x with
    -- a letter that fails leaves the cursor where the letters before it have brought it
    | error e => exact ha.movesTo_self
    | ok next =>
      have hnext : a.MovesTo g next := ha.step hstep
      exact hnext.trans (ih (hnext.tracked ha))

theorem run (ha : a.Tracked g) (word : List Symbol) : a.MovesTo g (a.run g word).1 := by
  have hreset : a.MovesTo g a.reset := .reset g a
  have hfeed : a.MovesTo g (a.reset.feed g word).1 := hreset.trans ((hreset.tracked ha).feed word)
  unfold Automaton.run
  split
  · next heq => rwa [heq] at hfeed
  · next heq => rwa [heq] at hfeed

theorem read (ha : a.Tracked g) (op : Operation) : a.MovesTo g (op.read g a).1 := by
  cases op with
  | reset => exact .reset g a
  | step _ x =>
    cases hstep : a.step g x with
    | error e =>
      simp only [Operation.read, hstep]
      exact ha.movesTo_self
    | ok next =>
      simp only [Operation.read, hstep]
      exact ha.step hstep
  | run _ word => exact ha.run word
  | _ => exact ha.movesTo_self

theorem next? (ha : a.Tracked g) (walk : PrefixWalk) :
    a.MovesTo g (PrefixWalk.next? g a walk).1 := by
  cases walk with
  | fresh => exact .reset g a
  | finished => exact ha.movesTo_self
  | reading rest =>
    cases rest with
    | nil => exact ha.movesTo_self
    | cons x rest =>
      cases hstep : a.step g x with
      | error e =>
        simp only [PrefixWalk.next?, hstep]
        exact ha.movesTo_self
      | ok next =>
        simp only [PrefixWalk.next?, hstep]
        exact ha.step hstep

end Tracked

end Automaton

/-- Some cursors have moved below the starts of their automata, and nothing else has changed. -/
structure Session.Moves (s s' : Session) : Prop where
  heap_eq : s'.heap = s.heap
  size_eq : s'.automata.size = s.automata.size
  automaton : ∀ r a, s.automaton? r = some a →
    ∃ a', s'.automaton? r = some a' ∧ a.MovesTo s.graph a'

/-- The cursor of every automaton is below its start, where ids tell states apart. -/
def Session.Tracked (s : Session) : Prop :=
  ∀ r a, s.automaton? r = some a → a.Tracked s.graph

variable {s : Session} {w : Workspace} {r : AutomatonRef} {a a' : Automaton} {op : Operation}

namespace Session

theorem Tracked.moves_self (hs : s.Tracked) : s.Moves s :=
  ⟨rfl, rfl, fun r a hr => ⟨a, hr, (hs r a hr).movesTo_self⟩⟩

theorem Tracked.moves_put (hs : s.Tracked) (hr : s.automaton? r = some a)
    (ha : a.MovesTo s.graph a') : s.Moves (s.put r a') := by
  refine ⟨rfl, Array.size_setIfInBounds, fun q b hq => ?_⟩
  by_cases heq : q = r
  · subst heq
    rw [hr] at hq
    cases hq
    exact ⟨a', automaton?_put_self hr a', ha⟩
  · exact ⟨b, (automaton?_put_of_ne heq a').trans hq, (hs q b hq).movesTo_self⟩

theorem Tracked.moves_walk (hs : s.Tracked) (walk : Walk) : s.Moves (walk.next? s).2.2 := by
  cases walk with
  | states w =>
    rw [Walk.next?]
    split <;> exact hs.moves_self
  | edges w =>
    rw [Walk.next?]
    split <;> exact hs.moves_self
  | finished => exact hs.moves_self
  | verdicts r w =>
    rw [Walk.next?]
    split
    · exact hs.moves_self
    · next a hr => exact hs.moves_put hr ((hs r a hr).next? w)

end Session

namespace Operation

/-- Whether an operation reads, or begins or resumes a walk that does. -/
def reads : Operation → Bool
  | .verdicts .. | .pull _ => true
  | op => op.reader?.isSome

/-- An operation that reads with an automaton that is not there does nothing. -/
theorem after_of_reader_eq_none (hop : op.reader? = some r) (hr : w.session.automaton? r = none) :
    w.after op = w := by
  have hrun := SessionM.run_automaton_of_eq_none hr
  unfold Workspace.after
  cases op with
  | reset q =>
    cases hop
    simp only [perform, Workspace.apply, SessionM.change, run_bind, hrun]
  | step q x =>
    cases hop
    simp only [perform, Workspace.apply, SessionM.step, run_bind, hrun]
  | run q word =>
    cases hop
    simp only [perform, Workspace.apply, SessionM.runWord, SessionM.simulate, run_bind,
      SessionM.run_graph, hrun]
  | isAccepting q =>
    cases hop
    simp only [perform, Workspace.apply, SessionM.isAccepting, run_bind, hrun]
  | accepts q word =>
    cases hop
    simp only [perform, Workspace.apply, SessionM.accepts, run_bind, hrun]
  | _ => cases hop

/-- An operation that reads moves cursors and nothing else. -/
theorem moves_of_reads (hop : op.reads = true) (hw : w.session.Tracked) :
    w.session.Moves (w.after op).session := by
  have hreader : ∀ r, op.reader? = some r → w.session.Moves (w.after op).session := by
    intro r hreader
    cases hr : w.session.automaton? r with
    | none =>
      rw [after_of_reader_eq_none hreader hr]
      exact hw.moves_self
    | some a =>
      unfold Workspace.after
      rw [perform_of_reader hreader hr]
      exact hw.moves_put hr ((hw r a hr).read op)
  cases op with
  | verdicts => exact hw.moves_self
  | pull i =>
    show w.session.Moves (w.pull i).2.session
    unfold Workspace.pull
    cases w.walks[i]? with
    | none => exact hw.moves_self
    | some walk => exact hw.moves_walk walk
  | reset r | step r | run r | isAccepting r | accepts r => exact hreader r rfl
  | _ => cases hop

end Operation

end EpsilonNfa
