import EpsilonNfa.Proofs.Independence
import EpsilonNfa.Proofs.Word

/-!
# What is built from letters

Automata are put together from letters by concatenation and copying, in any order and in any
bracketing, and what has been built is used again while words are read with it. However that is
done, an automaton denotes the one word of its letters (`Workspace.built_denotes`).
-/

namespace EpsilonNfa

/-- How an automaton is put together. -/
inductive Expression where
  | letter (x : Symbol)
  | concat (first second : Expression)
  | copy (e : Expression)

namespace Expression

/-- The letters from left to right. -/
def leaves : Expression → List Symbol
  | letter x => [x]
  | concat first second => first.leaves ++ second.leaves
  | copy e => e.leaves

/-- Whether the last thing that was done is a copy. -/
def isCopy : Expression → Bool
  | copy _ => true
  | _ => false

end Expression

namespace Operation

/-- What an operation puts together, in a session whose automata were built in the given ways. -/
def expression? (built : List Expression) : Operation → Option Expression
  | .ofSymbol x _ => some (.letter x)
  | .concat r q =>
    match built[r.index]?, built[q.index]? with
    | some first, some second => some (.concat first second)
    | _, _ => none
  | .copy r => built[r.index]?.map .copy
  | _ => none

/-- A letter can key a table and is not epsilon, and its source is there. -/
def HasLetter (h : Heap) : Operation → Prop
  | .ofSymbol x ids => x ≠ .epsilon ∧ x.isHashable = true ∧ ∀ src ∈ ids, src ∈ h
  | _ => True

/-- Whether an operation leaves what has been built as it is: it reads, or makes something new
beside it. -/
def leavesBuilt : Operation → Bool
  | .newSource _ | .newState .. => true
  | op => op.reads

end Operation

/-- The session of the workspace began on the heap without automata, and its automata were built in
the given ways. -/
inductive Workspace.Built (h : Heap) : Workspace → List Expression → Prop
  | start : Built h { session := { heap := h } } []
  | build {w : Workspace} {built : List Expression} {op : Operation} {e : Expression}
      (hw : Built h w built) (he : op.expression? built = some e)
      (hletter : op.HasLetter w.session.heap) : Built h (w.after op) (built ++ [e])
  | other {w : Workspace} {built : List Expression} {op : Operation}
      (hw : Built h w built) (hop : op.leavesBuilt = true) : Built h (w.after op) built

/-- Every automaton of the session spells the letters of what it was built from. -/
structure Workspace.Holds (w : Workspace) (built : List Expression) : Prop where
  size_eq : w.session.automata.size = built.length
  spells : ∀ i e, built[i]? = some e →
    ∃ a, w.session.automaton? ⟨i⟩ = some a ∧ a.Spells w.session.heap e.leaves

variable {h : Heap} {w : Workspace} {built : List Expression} {op : Operation} {e : Expression}

theorem SessionM.returns_concat {s : Session} {r q : AutomatonRef} {a b c : Automaton} {h' : Heap}
    (hr : s.automaton? r = some a) (hq : s.automaton? q = some b)
    (hconcat : Returns (a.concat b) s.heap c h') :
    Returns (concat r q) s ⟨s.automata.size⟩ { heap := h', automata := s.automata.push c } :=
  .bind (returns_automaton hr) (.bind (returns_automaton hq) (returns_build hconcat))

namespace Workspace

theorem apply_of_returns {α : Type} {action : SessionM α} {x : α} {s' : Session}
    (hreturns : Returns action w.session x s') (answer : α → Answer) :
    w.apply action answer = (.ok (answer x), { w with session := s' }) := by
  unfold Returns at hreturns
  unfold apply
  rw [hreturns]
  rfl

theorem after_newSource (w : Workspace) (first : Int) :
    w.after (.newSource first) =
      { w with session := { w.session with heap := (w.session.heap.addSource first).2 } } := rfl

theorem after_newState (w : Workspace) (ids : IdSource) (isFinal : Bool) :
    w.after (.newState ids isFinal) =
      { w with session := { w.session with heap := (w.session.heap.addState ids isFinal).2 } } := rfl

namespace Holds

theorem tracked (hw : w.Holds built) : w.session.Tracked := by
  intro r a hr
  obtain ⟨hlt, -⟩ := Array.getElem?_eq_some_iff.1 hr
  obtain ⟨b, hb, hspells⟩ := hw.spells r.index _ (List.getElem?_eq_getElem (hw.size_eq ▸ hlt))
  rw [hr] at hb
  cases hb
  exact hspells.tracked

/-- The heap may grow. -/
theorem setHeap {h' : Heap} (hw : w.Holds built) (hgrows : w.session.heap.Extends h') :
    Holds { w with session := { w.session with heap := h' } } built := by
  refine ⟨hw.size_eq, fun i e he => ?_⟩
  obtain ⟨a, ha, hspells⟩ := hw.spells i e he
  exact ⟨a, ha, hspells.grow hgrows⟩

theorem other (hw : w.Holds built) (hop : op.leavesBuilt = true) : (w.after op).Holds built := by
  have hreads : op.reads = true → (w.after op).Holds built := by
    intro hreads
    have hmoves := Operation.moves_of_reads hreads hw.tracked
    refine ⟨hmoves.size_eq.trans hw.size_eq, fun i e he => ?_⟩
    obtain ⟨a, ha, hspells⟩ := hw.spells i e he
    obtain ⟨a', ha', hmove⟩ := hmoves.automaton _ a ha
    rw [hmoves.heap_eq]
    exact ⟨a', ha', hspells.movesTo hmove⟩
  cases op with
  | newSource first =>
    rw [after_newSource]
    exact hw.setHeap (w.session.heap.grows_addSource first)
  | newState ids isFinal =>
    rw [after_newState]
    exact hw.setHeap (w.session.heap.grows_addState ids isFinal)
  | _ => exact hreads hop

/-- What is put together is made, and spells its letters. -/
theorem exists_build (hw : w.Holds built) (he : op.expression? built = some e)
    (hletter : op.HasLetter w.session.heap) :
    ∃ a h', op.perform w = (.ok (.automaton ⟨built.length⟩),
        { w with session := { heap := h', automata := w.session.automata.push a } }) ∧
      a.Spells h' e.leaves ∧ (e.isCopy = false → a.current = [a.start]) ∧
      w.session.heap.Extends h' := by
  rw [← hw.size_eq]
  cases op with
  | ofSymbol x ids =>
    cases he
    obtain ⟨hx, hhash, hids⟩ := hletter
    obtain ⟨a, h', hreturns, ha, hcurrent, hgrows⟩ := Automaton.exists_ofSymbol hx hhash hids
    exact ⟨a, h', apply_of_returns (SessionM.returns_build hreturns) _, ha, fun _ => hcurrent, hgrows⟩
  | concat r q =>
    rw [Operation.expression?] at he
    split at he
    · next first second hfirst hsecond =>
      cases he
      obtain ⟨a, hr, ha⟩ := hw.spells _ _ hfirst
      obtain ⟨b, hq, hb⟩ := hw.spells _ _ hsecond
      obtain ⟨c, h', hreturns, hc, hcurrent, hgrows⟩ := Automaton.exists_concat_spells ha hb
      exact ⟨c, h', apply_of_returns (SessionM.returns_concat hr hq hreturns) _, hc,
        fun _ => hcurrent, hgrows⟩
    · cases he
  | copy r =>
    obtain ⟨e, hbuilt, rfl⟩ := Option.map_eq_some_iff.1 he
    obtain ⟨a, hr, ha⟩ := hw.spells _ _ hbuilt
    obtain ⟨c, h', hreturns, hc, hgrows⟩ := Automaton.exists_copy_spells ha
    refine ⟨c, h', apply_of_returns (SessionM.returns_copy hr hreturns) _, hc, fun hcopy => ?_, hgrows⟩
    cases hcopy
  | _ => cases he

theorem build (hw : w.Holds built) (he : op.expression? built = some e)
    (hletter : op.HasLetter w.session.heap) : (w.after op).Holds (built ++ [e]) := by
  obtain ⟨a, h', hperform, ha, -, hgrows⟩ := hw.exists_build he hletter
  unfold after
  rw [hperform]
  refine ⟨?_, fun i d hd => ?_⟩
  · rw [Array.size_push, hw.size_eq, List.length_append]
    rfl
  · show ∃ b, (w.session.automata.push a)[i]? = some b ∧ b.Spells h' d.leaves
    rw [Array.getElem?_push, hw.size_eq]
    by_cases hi : i = built.length
    · rw [if_pos hi]
      rw [hi, List.getElem?_concat_length] at hd
      cases hd
      exact ⟨a, rfl, ha⟩
    · rw [if_neg hi]
      have hlt := (List.getElem?_eq_some_iff.1 hd).1
      rw [List.length_append, List.length_singleton] at hlt
      rw [List.getElem?_append_left (by omega)] at hd
      obtain ⟨b, hb, hspells⟩ := hw.spells i d hd
      exact ⟨b, hb, hspells.grow hgrows⟩

end Holds

theorem Built.holds (hw : Built h w built) : w.Holds built := by
  induction hw with
  | start => exact ⟨rfl, fun i e he => by cases he⟩
  | build _ he hletter ih => exact ih.build he hletter
  | other _ hop ih => exact ih.other hop

/-- Whatever has been built, any expression can be built next to it. -/
theorem Built.exists_of_leaves (hw : Built h w built)
    (he : ∀ x ∈ e.leaves, x ≠ .epsilon ∧ x.isHashable = true) :
    ∃ w' more, Built h w' (built ++ more ++ [e]) := by
  induction e generalizing w built with
  | letter x =>
    obtain ⟨hx, hhash⟩ := he x (List.mem_singleton_self x)
    refine ⟨w.after (.ofSymbol x none), [], ?_⟩
    rw [List.append_nil]
    exact hw.build rfl ⟨hx, hhash, fun _ hsrc => by cases hsrc⟩
  | copy e ih =>
    obtain ⟨w₁, more, hw₁⟩ := ih hw he
    refine ⟨w₁.after (.copy ⟨(built ++ more).length⟩), more ++ [e], ?_⟩
    rw [← List.append_assoc]
    refine hw₁.build ?_ trivial
    rw [Operation.expression?, List.getElem?_concat_length]
    rfl
  | concat first second ih ih' =>
    -- the second is built behind the first, which keeps its place
    obtain ⟨w₁, more, hw₁⟩ := ih hw fun x hx => he x (List.mem_append_left _ hx)
    obtain ⟨w₂, more', hw₂⟩ := ih' hw₁ fun x hx => he x (List.mem_append_right _ hx)
    refine ⟨w₂.after (.concat ⟨(built ++ more).length⟩ ⟨(built ++ more ++ [first] ++ more').length⟩),
      more ++ [first] ++ more' ++ [second], ?_⟩
    have hfirst : (built ++ more ++ [first] ++ more' ++ [second])[(built ++ more).length]? =
        some first := by
      rw [List.append_assoc, List.getElem?_append_left (by simp), List.getElem?_concat_length]
    simp only [← List.append_assoc]
    refine hw₂.build ?_ trivial
    simp only [Operation.expression?, hfirst, List.getElem?_concat_length]

/-- Everything that is built from letters denotes the word of its letters, whatever is built of what
and is read with it in between. Letters, concatenations and copies are always made, so every
expression can be built; the cursor of what was not made by copying is at its start. The automaton
of a text accepts the text alone. -/
theorem built_denotes (hw : Built h w built) :
    (∀ i e, built[i]? = some e →
      ∃ a, w.session.automaton? ⟨i⟩ = some a ∧ a.Denotes w.session.graph e.leaves) ∧
    (∀ op e, op.expression? built = some e → op.HasLetter w.session.heap →
      ∃ a, (op.perform w).1 = .ok (.automaton ⟨built.length⟩) ∧
        (w.after op).session.automaton? ⟨built.length⟩ = some a ∧
        a.Denotes (w.after op).session.graph e.leaves ∧
        (e.isCopy = false → a.current = [a.start])) ∧
    (∀ e : Expression, (∀ x ∈ e.leaves, x ≠ .epsilon ∧ x.isHashable = true) →
      ∃ w' more, Built h w' (built ++ more ++ [e])) ∧
    (∀ content, content ≠ "" →
      ∃ a h', Returns (Automaton.ofWord content) w.session.heap a h' ∧
        a.Denotes h'.graph (Symbol.ofText content) ∧ a.current = [a.start] ∧
        ∀ v, (a.run h'.graph v).2 = .ok true ↔ v = Symbol.ofText content) := by
  have hholds := hw.holds
  refine ⟨fun i e he => ?_, fun op e he hletter => ?_, fun e he => hw.exists_of_leaves he,
    fun content hcontent => ?_⟩
  · obtain ⟨a, ha, hspells⟩ := hholds.spells i e he
    exact ⟨a, ha, hspells.denotes⟩
  · obtain ⟨a, h', hperform, ha, hcurrent, -⟩ := hholds.exists_build he hletter
    unfold after
    rw [hperform]
    refine ⟨a, rfl, ?_, ha.denotes, hcurrent⟩
    show (w.session.automata.push a)[built.length]? = some a
    rw [← hholds.size_eq, Array.getElem?_push_size]
  · obtain ⟨a, h', hreturns, ha, hcurrent⟩ := Automaton.exists_ofWord hcontent w.session.heap
    refine ⟨a, h', hreturns, ha.denotes, hcurrent, fun v => ?_⟩
    rw [ha.denotes.run_iff, Symbol.forall₂_same_ofText]

/-- A letter that is read with, copied where it stands, and put behind its copy. -/
theorem built_denotes_twice :
    ∃ w, Built {} w [.letter (.int 1), .copy (.letter (.int 1)),
        .concat (.copy (.letter (.int 1))) (.letter (.int 1))] ∧
      ∃ a, w.session.automaton? ⟨2⟩ = some a ∧ a.Denotes w.session.graph [.int 1, .int 1] := by
  have hletter : (Operation.ofSymbol (.int 1) none).HasLetter {} :=
    ⟨by decide, by decide, fun _ hsrc => by cases hsrc⟩
  have hone : Built {} (Workspace.after _ (.ofSymbol (.int 1) none)) _ := .build .start rfl hletter
  have hread : Built {} (Workspace.after _ (.step ⟨0⟩ (.bool true))) _ := hone.other rfl
  have hcopy : Built {} (Workspace.after _ (.copy ⟨0⟩)) _ := hread.build rfl trivial
  have htwo : Built {} (Workspace.after _ (.concat ⟨1⟩ ⟨0⟩)) _ := hcopy.build rfl trivial
  exact ⟨_, htwo, (built_denotes htwo).1 2 _ rfl⟩

end Workspace

end EpsilonNfa
