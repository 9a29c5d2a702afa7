import EpsilonNfa.Proofs.Simulation
import Mathlib.Data.Set.Defs

/-!
# What a simulation reads

The verdict on a word depends on nothing but the states below the start: where two graphs agree on
these, every word has one verdict in both (`Automaton.run_congr`). In general a simulation stays in
any set of states that no edge leads out of, and cannot tell graphs apart that agree on such a set.
This holds for any ids, also where the search along epsilon edges and the steps take one state for
another.
-/

namespace EpsilonNfa

variable {g g' : Graph} {S : Set Ref} {root r s t : Ref} {l : List Ref} {x : Symbol}
variable {word : List Symbol}

/-- No edge leads out of the set. -/
def Graph.Confines (g : Graph) (S : Set Ref) : Prop :=
  ∀ r ∈ S, ∀ t ∈ (g.state r).targets, t ∈ S

namespace Graph.Confines

theorem mem_of_reaches (hS : g.Confines S) (hs : s ∈ S) (ht : g.Reaches s t) : t ∈ S := by
  induction ht with
  | refl => exact hs
  | step _ edge ih => exact hS _ ih _ edge

theorem below (g : Graph) (root : Ref) : g.Confines {r | g.Reaches root r} :=
  fun _ hr _ ht => Reaches.step hr ht

theorem all (g : Graph) : g.Confines {r | r ∈ g} :=
  fun _ _ _ ht => mem_of_mem_targets ht

end Graph.Confines

section Agreement

variable (hS : g.Confines S) (h : ∀ r ∈ S, g'.state r = g.state r)
include hS h

/-! ## The epsilon closure -/

namespace ClosureSearch

variable {w : ClosureSearch}

omit hS in
theorem visit_congr (ht : t ∈ S) (w : ClosureSearch) : w.visit g' t = w.visit g t := by
  unfold visit
  rw [h t ht]

theorem expand_congr (hr : r ∈ S) (w : ClosureSearch) :
    w.expand g' r = w.expand g r := by
  unfold expand
  rw [h r hr]
  exact List.foldl_ext _ _ _ fun w t ht => visit_congr h (hS r hr t (List.mem_append_right _ ht)) w

omit hS h in
/-- What is put on the stack are targets of epsilon edges. -/
theorem mem_stack_foldl_visit (ht : t ∈ (l.foldl (visit g) w).stack) : t ∈ w.stack ∨ t ∈ l := by
  induction l generalizing w with
  | nil => exact Or.inl ht
  | cons r l ih =>
    rcases ih ht with ht | ht
    · unfold visit at ht
      split at ht
      · exact Or.inl ht
      · rcases List.mem_cons.1 ht with rfl | ht
        · exact Or.inr List.mem_cons_self
        · exact Or.inl ht
    · exact Or.inr (List.mem_cons_of_mem _ ht)

/-- The search stays in the set. -/
theorem run_congr (hstack : ∀ r ∈ w.stack, r ∈ S) : run g' w = run g w := by
  fun_induction run g w with
  | case1 w hempty =>
    rw [run]
    split
    · rfl
    · next heq =>
      rw [hempty] at heq
      cases heq
  | case2 w r rest hcons ih =>
    have hr : r ∈ S := hstack r (by rw [hcons]; exact List.mem_cons_self)
    rw [run]
    split
    · next heq =>
      rw [hcons] at heq
      cases heq
    · next r' rest' heq =>
      rw [hcons] at heq
      cases heq
      rw [expand_congr hS h hr]
      refine ih fun t ht => ?_
      rcases mem_stack_foldl_visit ht with ht | ht
      · exact hstack t (by rw [hcons]; exact List.mem_cons_of_mem _ ht)
      · exact hS r hr t (List.mem_append_right _ ht)

end ClosureSearch

namespace Graph

variable (hl : ∀ r ∈ l, r ∈ S)
include hl

omit h in
theorem mem_of_mem_epsilonClosure (ht : t ∈ g.epsilonClosure l) : t ∈ S := by
  obtain ⟨found, hclosure, hsound⟩ := g.exists_sound_epsilonClosure l
  rw [hclosure] at ht
  obtain ⟨s, hs, hst⟩ := hsound.reached t ht
  exact hS.mem_of_reaches (hl s hs) hst.reaches

omit hS in
theorem byId_congr : g'.byId l = g.byId l :=
  List.foldl_ext _ _ _ fun m r hr => by rw [h r (hl r hr)]

theorem epsilonClosure_congr : g'.epsilonClosure l = g.epsilonClosure l := by
  unfold epsilonClosure
  simp only [byId_congr h hl]
  refine congrArg IdMap.values (ClosureSearch.run_congr hS h fun r hr => hl r ?_)
  exact (g.byId_spec l).2.1 r (List.mem_reverse.1 hr)

/-! ## Letters -/

omit h in
/-- The targets of a letter are in the set, as the states are from which it is read. -/
theorem mem_of_foldlM_noteTarget {found found' : IdMap} (hfound : ∀ r ∈ found.values, r ∈ S)
    (hrun : l.foldlM (g.noteTarget x) found = .ok found') : ∀ r ∈ found'.values, r ∈ S := by
  induction l generalizing found with
  | nil =>
    cases hrun
    exact hfound
  | cons r l ih =>
    rw [List.foldlM_cons] at hrun
    obtain ⟨next, hnext, hrun⟩ := bind_eq_ok.1 hrun
    refine ih (fun q hq => hl q (List.mem_cons_of_mem _ hq)) ?_ hrun
    cases hx : x.isHashable with
    | false =>
      rw [noteTarget_of_not_isHashable hx] at hnext
      cases hnext
    | true =>
      rw [noteTarget_of_isHashable hx] at hnext
      cases hnext
      split
      · next t hfind =>
        obtain ⟨y, hy, -⟩ := TransitionTable.find?_eq_some_iff.1 hfind
        intro q hq
        rcases IdMap.mem_values_of_mem_values_insert hq with hq | rfl
        · exact hfound q hq
        · exact hS.mem_of_reaches (hl r List.mem_cons_self) (Reaches.refl.step_symbol hy)
      · exact hfound

theorem foldlM_noteTarget_congr (found : IdMap) :
    l.foldlM (g'.noteTarget x) found = l.foldlM (g.noteTarget x) found := by
  induction l generalizing found with
  | nil => rfl
  | cons r l ih =>
    have hr := hl r List.mem_cons_self
    have hnote : g'.noteTarget x found r = g.noteTarget x found r := by
      cases hx : x.isHashable with
      | false => rw [noteTarget_of_not_isHashable hx, noteTarget_of_not_isHashable hx]
      | true =>
        rw [noteTarget_of_isHashable hx, noteTarget_of_isHashable hx, h r hr]
        cases hfind : (g.state r).onSymbol.find? x with
        | none => rfl
        | some t =>
          obtain ⟨y, hy, -⟩ := TransitionTable.find?_eq_some_iff.1 hfind
          simp only [h t (hS.mem_of_reaches hr (Reaches.refl.step_symbol hy))]
    rw [List.foldlM_cons, List.foldlM_cons, hnote]
    exact bind_congr fun next => ih (fun q hq => hl q (List.mem_cons_of_mem _ hq)) next

theorem step_congr (x : Symbol) : g'.step l x = g.step l x := by
  unfold step
  rw [epsilonClosure_congr hS h hl]
  rw [foldlM_noteTarget_congr hS h fun r hr => mem_of_mem_epsilonClosure hS hl hr]

theorem acceptsAt_congr : g'.acceptsAt l = g.acceptsAt l := by
  unfold acceptsAt
  rw [epsilonClosure_congr hS h hl, Bool.eq_iff_iff, List.any_eq_true, List.any_eq_true]
  refine exists_congr fun r => and_congr_right fun hr => ?_
  rw [h r (mem_of_mem_epsilonClosure hS hl hr)]

omit h in
theorem mem_of_step {l' : List Ref} (hstep : g.step l x = .ok l') : ∀ r ∈ l', r ∈ S := by
  unfold step at hstep
  obtain ⟨found, hrun, hstep⟩ := bind_eq_ok.1 hstep
  cases hstep
  exact mem_of_foldlM_noteTarget hS (fun r hr => mem_of_mem_epsilonClosure hS hl hr) (by simp)
    hrun

end Graph

/-! ## Words -/

namespace Automaton

variable {a a' : Automaton}

/-- Automata with one cursor in the set read a word alike, and nothing but the cursor moves. -/
theorem feed_congr (hcurrent : a'.current = a.current) (hl : ∀ r ∈ a.current, r ∈ S)
    (word : List Symbol) :
    a'.feed g' word =
        ({ a' with current := (a.feed g word).1.current }, (a.feed g word).2) ∧
      ∀ r ∈ (a.feed g word).1.current, r ∈ S := by
  induction word generalizing a a' with
  | nil =>
    refine ⟨?_, hl⟩
    show (a', Except.ok ()) = ({ a' with current := a.current }, .ok ())
    rw [← hcurrent]
  | cons x word ih =>
    have hstep : g'.step a'.current x = g.step a.current x := by
      rw [hcurrent]
      exact Graph.step_congr hS h hl x
    unfold feed step
    rw [hstep]
    cases hnext : g.step a.current x with
    | error e =>
      refine ⟨?_, hl⟩
      show (a', Except.error e) = ({ a' with current := a.current }, .error e)
      rw [← hcurrent]
    | ok l => exact ih rfl (Graph.mem_of_step hS hl hnext)

end Automaton

end Agreement

/-- Automata with one start in graphs that agree below it give one verdict on every word. -/
theorem Automaton.run_congr {a a' : Automaton} (hstart : a'.start = a.start)
    (h : ∀ r, g.Reaches a.start r → g'.state r = g.state r) (word : List Symbol) :
    (a'.run g' word).2 = (a.run g word).2 := by
  have hbelow := Graph.Confines.below g a.start
  have hreset : ∀ r ∈ a.reset.current, g.Reaches a.start r := by
    intro r hr
    rw [List.mem_singleton.1 hr]
    exact .refl
  have hcurrent : a'.reset.current = a.reset.current := by
    unfold reset
    rw [hstart]
  obtain ⟨hfeed', hend⟩ := feed_congr hbelow h hcurrent hreset word
  unfold run
  rw [hfeed']
  rcases hfeed : a.reset.feed g word with ⟨last, outcome⟩
  rw [hfeed] at hend
  cases outcome with
  | error e => rfl
  | ok _ => exact congrArg Except.ok (Graph.acceptsAt_congr hbelow h hend)

end EpsilonNfa
