import EpsilonNfa.Proofs.ConcatShape
import EpsilonNfa.Proofs.Edits
import EpsilonNfa.Proofs.Expression

/-!
# Combinators stay apart from their operands

Making an automaton of a letter, copying one and putting one behind another leave everything alone
that was there, and what they make has no state in common with it (`Workspace.combine_apart`). So
what is done later to the one side does not show on the other.
-/

namespace EpsilonNfa

variable {w : Workspace} {op : Operation} {q : AutomatonRef} {a c : Automaton}

namespace Operation

/-- Whether an operation makes an automaton of a letter or of other automata. -/
def combines : Operation → Bool
  | .ofSymbol .. | .concat .. | .copy _ => true
  | _ => false

/-- The source from which such an operation draws: the one that it is given, or that of its first
operand. -/
def source? (s : Session) : Operation → Option IdSource
  | .ofSymbol _ ids => ids
  | .concat p _ | .copy p => (s.automaton? p).map (·.ids)
  | _ => none

/-- Such an operation builds an automaton, if its operands are there. -/
theorem exists_build (hop : op.combines = true) (w : Workspace) :
    (∃ m : HeapM Automaton, op.perform w = w.apply (SessionM.build m) .automaton ∧
      Ensures m w.session.heap (w.session.heap.Keeps (op.source? w.session))
        fun c h' => c.MadeSince w.session.heap h') ∨
    op.perform w = (.error .unknownAutomaton, w) := by
  cases op with
  | ofSymbol x ids => exact Or.inl ⟨_, rfl, Automaton.ofSymbol_ensures w.session.heap x ids⟩
  | copy p =>
    rcases SessionM.run_copy_or w.session p with ⟨a, hp, hrun⟩ | hrun
    · refine Or.inl ⟨a.copy, by simp only [perform, Workspace.apply, hrun], ?_⟩
      simp only [source?, hp]
      exact Automaton.copy_ensures w.session.heap a
    · exact Or.inr (by simp only [perform, Workspace.apply, hrun]; rfl)
  | concat p q =>
    rcases SessionM.run_concat_or w.session p q with ⟨a, b, hp, -, hrun⟩ | hrun
    · refine Or.inl ⟨a.concat b, by simp only [perform, Workspace.apply, hrun], ?_⟩
      simp only [source?, hp]
      exact Automaton.concat_ensures w.session.heap a b
    · exact Or.inr (by simp only [perform, Workspace.apply, hrun]; rfl)
  | _ => cases hop

/-- What such an operation leaves behind: a heap that keeps what it held and, if the operation
returns, one automaton more, made of new states. -/
theorem exists_combined (hop : op.combines = true) (w : Workspace) :
    ∃ heap, w.session.heap.Keeps (op.source? w.session) heap ∧
      ((∃ e, op.perform w = (.error e, { w with session := { w.session with heap } })) ∨
        ∃ c, c.MadeSince w.session.heap heap ∧
          op.perform w = (.ok (.automaton ⟨w.session.automata.size⟩),
            { w with session := { heap, automata := w.session.automata.push c } })) := by
  rcases exists_build hop w with ⟨m, hperform, hm⟩ | hperform
  · have hrun := SessionM.run_build m w.session
    rcases hresult : m.run.run w.session.heap with ⟨e | c, heap⟩
    · have hkeeps := hm.left
      rw [hresult] at hkeeps hrun
      refine ⟨heap, hkeeps, Or.inl ⟨e, ?_⟩⟩
      rw [hperform, Workspace.apply, hrun]
      rfl
    · have hkeeps := hm.left
      have hmade := hm.returned hresult
      rw [hresult] at hkeeps hrun
      refine ⟨heap, hkeeps, Or.inr ⟨c, hmade, ?_⟩⟩
      rw [hperform, Workspace.apply, hrun]
      rfl
  · exact ⟨w.session.heap, .refl _ _, Or.inl ⟨_, hperform⟩⟩

theorem touched?_of_combines (hop : op.combines = true) : op.touched? = none := by
  cases op with
  | ofSymbol | concat | copy => rfl
  | _ => cases hop

end Operation

namespace Workspace

/-- Making an automaton of a letter, copying one and putting one behind another never touch or share
what is there, whatever the ids are and wherever stops and cursors stand. Whether the operation
returns or fails, no state changes that existed, no automaton does and no walk, and of the counters
only that of the source from which it draws. If it returns, all states below the start of the new
automaton, its stop and its cursor were made by the operation. So nothing that is done later changes
a verdict of the new automaton, as long as it touches none of the states made for it; and nothing
that is done later changes a verdict which an automaton had before, as long as it touches none of
the states that existed. -/
theorem combine_apart (hop : op.combines = true) :
    (∀ r ∈ w.session.graph, r ∈ (w.after op).session.graph ∧
      (w.after op).session.graph.state r = w.session.graph.state r) ∧
    (∀ q a, w.session.automaton? q = some a → (w.after op).session.automaton? q = some a) ∧
    (w.after op).walks = w.walks ∧
    (∀ ids ∈ w.session.heap, some ids ≠ op.source? w.session →
      (w.after op).session.heap.nextId ids = w.session.heap.nextId ids) ∧
    (∀ answer, (op.perform w).1 = .ok answer → ∃ q c, answer = .automaton q ∧
      w.session.automaton? q = none ∧ (w.after op).session.automaton? q = some c ∧
      c.MadeSince w.session.heap (w.after op).session.heap ∧
      ∀ edits : List Edit, (∀ e ∈ edits, ∀ r, e.touched? = some r →
          ¬ w.session.heap.New (w.after op).session.heap r) →
        ∀ word, ((Operation.run q word).perform ((w.after op).editAll edits)).1 =
          ((Operation.run q word).perform (w.after op)).1) ∧
    ∀ q a, w.session.automaton? q = some a → a.start ∈ w.session.graph →
      ∀ edits : List Edit, (∀ e ∈ edits, ∀ r, e.touched? = some r → r ∉ w.session.graph) →
        ∀ word, ((Operation.run q word).perform ((w.after op).editAll edits)).1 =
          ((Operation.run q word).perform w).1 := by
  obtain ⟨heap, hkeeps, houtcome⟩ := Operation.exists_combined hop w
  have hheap : (w.after op).session.heap = heap := by
    unfold after
    rcases houtcome with ⟨e, hperform⟩ | ⟨c, -, hperform⟩ <;> rw [hperform]
  have hgraph : (w.after op).session.graph = heap.graph := congrArg Heap.graph hheap
  refine ⟨fun r hr => ?_, fun q a hq => ?_, ?_, ?_, ?_, ?_⟩
  · rw [hgraph]
    exact ⟨hkeeps.grows.mem hr, hkeeps.grows.state_eq r hr⟩
  · unfold after
    rcases houtcome with ⟨e, hperform⟩ | ⟨c, -, hperform⟩ <;> rw [hperform]
    · exact hq
    · exact Session.automaton?_push hq heap c
  · unfold after
    rcases houtcome with ⟨e, hperform⟩ | ⟨c, -, hperform⟩ <;> rw [hperform]
  · rw [hheap]
    exact fun ids hids hne => hkeeps.nextId_eq hids hne
  · intro answer hanswer
    rcases houtcome with ⟨e, hperform⟩ | ⟨c, hmade, hperform⟩
    · rw [hperform] at hanswer
      cases hanswer
    · rw [hperform] at hanswer
      cases hanswer
      have hc : (w.after op).session.automaton? ⟨w.session.automata.size⟩ = some c := by
        unfold after
        rw [hperform]
        exact Array.getElem?_push_size
      rw [← hheap] at hmade
      refine ⟨_, c, rfl, Array.getElem?_eq_none (Nat.le_refl _), hc, hmade,
        fun edits hedits word => ?_⟩
      exact run_editAll edits hc (hmade.below _ .refl).2 hmade.below hedits word
  · intro q a hq hstart edits hedits word
    -- the operation itself is one more edit that touches nothing
    refine run_editAll (P := (· ∈ w.session.graph)) (.operation op :: edits) hq hstart
      (fun r hr => hr.mem hstart) (fun e he r hr => ?_) word
    rcases List.mem_cons.1 he with rfl | he
    · exact absurd hr (by simp [Edit.touched?, Operation.touched?_of_combines hop])
    · exact hedits e he r hr

/-- The automaton that stops at the second of the twins, put behind itself. Its stop gets an edge
back, its start becomes final, it gets another stop and takes a step, and nothing of this shows on
the concatenation. -/
theorem combine_apart_twins :
    let a : Automaton := .ofStates ⟨0⟩ ⟨2⟩ ⟨0⟩
    let w : Workspace := { session := { heap := { graph := .twins, nextIds := #[1] }
                                        automata := #[a] } }
    let op : Operation := .concat ⟨0⟩ ⟨0⟩
    op.combines = true ∧ ∃ q, (op.perform w).1 = .ok (.automaton q) ∧
      ∀ word, ((Operation.run q word).perform ((w.after op).editAll
          [.operation (.connect ⟨2⟩ .epsilon ⟨0⟩), .operation (.setFinal ⟨0⟩ true),
            .setStop ⟨0⟩ ⟨1⟩, .operation (.step ⟨0⟩ (.text "a"))])).1 =
        ((Operation.run q word).perform (w.after op)).1 := by
  intro a w op
  have ha : a.Within w.session.heap := by decide
  have hmet : a.StopMet w.session.graph := Automaton.stopMet_twins
  obtain ⟨c, h', hreturns, -⟩ :=
    Automaton.exists_concat_of_hasShape ha ha hmet.hasShape hmet.hasShape
  have hperform : (op.perform w).1 = .ok (.automaton ⟨w.session.automata.size⟩) := by
    rw [Operation.perform, apply_of_returns (SessionM.returns_concat rfl rfl hreturns)]
  have hop : op.combines = true := rfl
  obtain ⟨-, -, -, -, hresult, -⟩ := combine_apart (w := w) hop
  obtain ⟨q, -, hq, -, -, -, hapart⟩ := hresult _ hperform
  cases hq
  refine ⟨hop, _, hperform, hapart _ fun e he r hr hnew => hnew.1 ?_⟩
  simp only [List.mem_cons, List.not_mem_nil, or_false] at he
  rcases he with rfl | rfl | rfl | rfl <;> cases hr <;> decide

end Workspace

end EpsilonNfa
