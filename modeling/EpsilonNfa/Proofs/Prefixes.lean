import EpsilonNfa.Proofs.CommandLine
import EpsilonNfa.Proofs.SharedCursor
import EpsilonNfa.Proofs.WholeWalk
import Mathlib.Data.List.Permutation

/-!
# Verdicts at the prefixes of a word

The verdicts at the prefixes of a word are given by one cursor, which goes on from each to the next.
They are still the verdicts of separate readings of the prefixes, and a word may be read in two
parts (`SessionM.prefix_verdicts`).

The cursor is a set, and so is its epsilon closure. A list of the states has an order, but where ids
tell states apart nothing depends on it: whatever the orders in which a step goes through the two
sets, and however they differ from step to step, the cursor is the same set after it
(`Automaton.HasRead.feedVia`).
-/

namespace EpsilonNfa

/-- A way to put the states of a set in order. -/
structure Arrangement where
  arrange : List Ref → List Ref
  perm : ∀ l, (arrange l).Perm l

theorem Arrangement.mem_arrange (p : Arrangement) {l : List Ref} {t : Ref} :
    t ∈ p.arrange l ↔ t ∈ l :=
  (p.perm l).mem_iff

namespace Graph

/-- A step that goes through the cursor in the order of `p` and through its closure in that of
`q`. -/
def stepVia (g : Graph) (p q : Arrangement) (l : List Ref) (x : Symbol) :
    Except Error (List Ref) := do
  let found ← (q.arrange (g.epsilonClosure (p.arrange l))).foldlM (g.noteTarget x) ∅
  return found.values

/-- The verdict at a cursor that is gone through in the order of `p`, and its closure in that of
`q`. -/
def acceptsVia (g : Graph) (p q : Arrangement) (l : List Ref) : Bool :=
  (q.arrange (g.epsilonClosure (p.arrange l))).any fun r => (g.state r).isFinal

end Graph

/-- Reads letters, each with the orders of its step. -/
def Automaton.feedVia (g : Graph) (a : Automaton) :
    List (Symbol × Arrangement × Arrangement) → Except Error Automaton
  | [] => return a
  | (x, p, q) :: letters => do
    let current ← g.stepVia p q a.current x
    feedVia g { a with current } letters

namespace SessionM

/-- Puts the cursor back to the start and steps along a word, with a verdict before each letter and
at the end. -/
def verdictsByStep (r : AutomatonRef) (word : List Symbol) : SessionM (List Bool) := do
  change r Automaton.reset
  let first ← isAccepting r
  let rest ← word.mapM fun x => do
    let _ ← step r x
    isAccepting r
  return first :: rest

end SessionM

variable {g : Graph} {a a' last : Automaton} {word : List Symbol} {x : Symbol}
variable {letters : List (Symbol × Arrangement × Arrangement)}

/-! ## Any order -/

namespace Graph

variable {root t : Ref} {l l' : List Ref} (hd : g.DistinctIds root)
variable (hl : ∀ r ∈ l, g.Reaches root r) (hsame : ∀ t, t ∈ l' ↔ t ∈ l) (p q : Arrangement)
include hd hl hsame

/-- The closure of a set, whatever the orders of the set and of its closure. -/
theorem mem_arranged_closure :
    t ∈ q.arrange (g.epsilonClosure (p.arrange l')) ↔ ∃ s ∈ l, g.EpsilonReaches s t := by
  have hbelow : ∀ r ∈ p.arrange l', g.Reaches root r := fun r hr =>
    hl r ((hsame r).1 (p.mem_arrange.1 hr))
  rw [q.mem_arrange, mem_epsilonClosure_of_distinctIds hd hbelow]
  simp only [p.mem_arrange, hsame]

theorem acceptsVia_eq : g.acceptsVia p q l' = g.acceptsAt l := by
  unfold acceptsVia acceptsAt
  rw [Bool.eq_iff_iff, List.any_eq_true, List.any_eq_true]
  simp only [mem_arranged_closure hd hl hsame p q, mem_epsilonClosure_of_distinctIds hd hl]

end Graph

namespace Automaton.HasRead

/-- One word leaves one set of states at the cursor. -/
theorem mem_current_iff {b b' : Automaton} (h : a.HasRead g word b) (h' : a.HasRead g word b')
    (t : Ref) : t ∈ b.current ↔ t ∈ b'.current := by
  obtain ⟨l, rfl, hl⟩ := h
  obtain ⟨l', rfl, hl'⟩ := h'
  exact (hl t).trans (hl' t).symm

variable (hd : g.DistinctIds a.start)
include hd

theorem stepVia (h : a.HasRead g word a') (hx : x.isHashable = true) (p q : Arrangement) :
    ∃ l, g.stepVia p q a'.current x = .ok l ∧
      a.HasRead g (word ++ [x]) { a' with current := l } := by
  have hbelow := h.reaches
  obtain ⟨l, rfl, hl⟩ := h
  obtain ⟨found, hrun⟩ := Graph.exists_foldlM_noteTarget hx
    (q.arrange (g.epsilonClosure (p.arrange l))) ∅
  refine ⟨found.values, ?_, found.values, rfl, fun t => ?_⟩
  · unfold Graph.stepVia
    rw [hrun]
    rfl
  · have hclosure : ∀ {t}, t ∈ q.arrange (g.epsilonClosure (p.arrange l)) ↔
        ∃ s ∈ l, g.EpsilonReaches s t :=
      Graph.mem_arranged_closure hd hbelow (fun _ => Iff.rfl) p q
    rw [Graph.mem_values_noteTargets hd hbelow hclosure hrun, Graph.mem_afterWord_append]
    simp only [hl]

theorem acceptsVia (h : a.HasRead g word a') (p q : Arrangement) :
    g.acceptsVia p q a'.current = a'.isAccepting g :=
  Graph.acceptsVia_eq hd h.reaches (fun _ => Iff.rfl) p q

theorem feedVia (h : a.HasRead g word a') (hletters : ∀ l ∈ letters, l.1.isHashable = true) :
    ∃ a'', a'.feedVia g letters = .ok a'' ∧ a.HasRead g (word ++ letters.map (·.1)) a'' := by
  induction letters generalizing word a' with
  | nil => exact ⟨a', rfl, by simpa using h⟩
  | cons letter letters ih =>
    obtain ⟨x, p, q⟩ := letter
    obtain ⟨l, hstep, hl⟩ := h.stepVia hd (hletters _ List.mem_cons_self) p q
    obtain ⟨a'', hfeed, h''⟩ := ih hl fun d hd => hletters d (List.mem_cons_of_mem _ hd)
    refine ⟨a'', ?_, by simpa using h''⟩
    rw [Automaton.feedVia, hstep]
    exact hfeed

end Automaton.HasRead

/-! ## One cursor for all prefixes -/

namespace Automaton

theorem feed_append {u v : List Symbol} (h : a.feed g u = (a', .ok ())) :
    a.feed g (u ++ v) = a'.feed g v := by
  induction u generalizing a with
  | nil =>
    cases h
    rfl
  | cons x u ih =>
    obtain ⟨l, hstep, hfeed⟩ := feed_cons_eq_ok_iff.1 h
    rw [List.cons_append, feed, step_eq_ok_iff.2 ⟨l, hstep, rfl⟩]
    exact ih hfeed

theorem prefixVerdicts_eq (hword : ∀ x ∈ word, x.isHashable = true)
    (h : a.reset.feed g word = (last, .ok ())) :
    a.prefixVerdicts g word = (last, .ok ((List.range (word.length + 1)).map fun i =>
      (a.reset.feed g (word.take i)).1.isAccepting g)) := by
  refine Prod.ext ?_ (snd_prefixVerdicts hword a)
  show (a.reset.verdictsAfter g word).1 = last
  rw [fst_verdictsAfter, h]

end Automaton

namespace SessionM

variable {s : Session} {r : AutomatonRef} {verdicts : List Bool}

theorem returns_runWord (hr : s.automaton? r = some a)
    (h : a.reset.feed s.graph word = (a', .ok ())) :
    Returns (runWord r word) s (a'.isAccepting s.graph) (s.put r a') := by
  unfold Returns runWord
  rw [run_simulate hr, Automaton.run_eq_of_feed h]

theorem returns_mapM_step (hr : s.automaton? r = some a)
    (h : a.verdictsAfter s.graph word = (last, .ok verdicts)) :
    Returns (word.mapM fun x => do
      let _ ← step r x
      isAccepting r) s verdicts (s.put r last) := by
  induction word generalizing s a verdicts with
  | nil =>
    cases h
    rw [Session.put_self hr, List.mapM_nil]
    exact .pure _ s
  | cons x word ih =>
    obtain ⟨next, rest, hstep, hrest, rfl⟩ := Automaton.exists_of_verdictsAfter_cons h
    have hnext := Session.automaton?_put_self hr next
    have hreturns := ih (s := s.put r next) hnext hrest
    rw [Session.put_put] at hreturns
    rw [List.mapM_cons]
    refine .bind (.bind (returns_step hr hstep) (returns_isAccepting hnext)) ?_
    exact .bind hreturns (.pure _ _)

theorem returns_verdictsByStep (hr : s.automaton? r = some a)
    (h : a.prefixVerdicts s.graph word = (last, .ok verdicts)) :
    Returns (verdictsByStep r word) s verdicts (s.put r last) := by
  obtain ⟨rest, hrest, rfl⟩ := Automaton.exists_of_prefixVerdicts h
  have hreset := Session.automaton?_put_self hr a.reset
  have hreturns := returns_mapM_step (s := s.put r a.reset) hreset hrest
  rw [Session.put_put] at hreturns
  refine .bind (run_change hr _) (.bind (returns_isAccepting hreset) ?_)
  exact .bind hreturns (.pure _ _)

/-- Where ids tell states apart and the letters can key a table, a walk over the prefixes of a word
gives as many verdicts as there are prefixes, wherever the cursor was before. They are the verdicts
of stepping along the word, and each is that of a reading of its own prefix from the start, whatever
the orders in which its steps go through their sets. Reading a first part of the word and stepping
along the rest gives the verdict on the whole word, and all of these leave the cursor in one
place. -/
theorem prefix_verdicts (hr : s.automaton? r = some a) (hd : s.graph.DistinctIds a.start)
    (hword : ∀ x ∈ word, x.isHashable = true) :
    ∃ verdicts last verdict, verdicts.length = word.length + 1 ∧
      (Walk.verdictsOf r word).Yields s (verdicts.map .verdict) (s.put r last) ∧
      Returns (verdictsByStep r word) s verdicts (s.put r last) ∧
      Returns (runWord r word) s verdict (s.put r last) ∧
      (∀ i (hi : i < verdicts.length), ∃ b,
        Returns (runWord r (word.take i)) s verdicts[i] (s.put r b) ∧
        ∀ letters, letters.map (·.1) = word.take i →
          ∃ b', a.reset.feedVia s.graph letters = .ok b' ∧
            (∀ t, t ∈ b'.current ↔ t ∈ b.current) ∧
            ∀ p q, s.graph.acceptsVia p q b'.current = verdicts[i]) ∧
      ∀ u v, u ++ v = word → Returns (do
        let _ ← runWord r u
        steps (v.map (r, ·))
        isAccepting r) s verdict (s.put r last) := by
  have hreset := a.hasRead_reset s.graph
  obtain ⟨last, hfeed, -⟩ := hreset.feed hd hword
  have hverdicts := Automaton.prefixVerdicts_eq hword hfeed
  refine ⟨_, last, last.isAccepting s.graph, by simp, Walk.yields_verdictsOf hr hverdicts,
    returns_verdictsByStep hr hverdicts, returns_runWord hr hfeed, fun i hi => ?_, ?_⟩
  · have hprefix : ∀ x ∈ word.take i, x.isHashable = true := fun x hx =>
      hword x (List.mem_of_mem_take hx)
    obtain ⟨b, hb, hread⟩ := hreset.feed hd hprefix
    have hverdict : b.isAccepting s.graph =
        (a.reset.feed s.graph (word.take i)).1.isAccepting s.graph := by rw [hb]
    rw [List.getElem_map, List.getElem_range, ← hverdict]
    refine ⟨b, returns_runWord hr hb, fun letters hletters => ?_⟩
    have hhashable : ∀ l ∈ letters, l.1.isHashable = true := fun l hl =>
      hprefix l.1 (hletters ▸ List.mem_map.2 ⟨l, hl, rfl⟩)
    obtain ⟨b', hb', hread'⟩ := hreset.feedVia hd hhashable
    rw [hletters] at hread'
    refine ⟨b', hb', hread'.mem_current_iff hread, fun p q => ?_⟩
    rw [hread'.acceptsVia hd, Bool.eq_iff_iff, hread'.isAccepting_iff hd, hread.isAccepting_iff hd]
  -- a reading of the first part leaves the cursor where a reading of the word passes
  · rintro u v rfl
    obtain ⟨b, hb, -⟩ := hreset.feed hd fun x hx => hword x (List.mem_append_left v hx)
    rw [Automaton.feed_append hb] at hfeed
    have hput := Session.automaton?_put_self hr b
    have hsteps := returns_steps hput hfeed
    rw [Session.put_put] at hsteps
    refine .bind (returns_runWord hr hb) (.bind hsteps ?_)
    exact returns_isAccepting (Session.automaton?_put_self hr last)

/-- Round the loop, with the cursor at the stop before. -/
theorem prefix_verdicts_loop :
    let a : Automaton := ⟨⟨0⟩, ⟨1⟩, ⟨0⟩, [⟨1⟩]⟩
    let s : Session := { heap := { graph := .loop, nextIds := #[2] }, automata := #[a] }
    s.automaton? ⟨0⟩ = some a ∧ s.graph.DistinctIds a.start ∧
      (∀ x ∈ Symbol.ofText "aa", x.isHashable = true) ∧
      ∃ last, (Walk.verdictsOf ⟨0⟩ (Symbol.ofText "aa")).Yields s
          [.verdict false, .verdict true, .verdict true] (s.put ⟨0⟩ last) ∧
        Returns (runWord ⟨0⟩ (Symbol.ofText "aa")) s true (s.put ⟨0⟩ last) := by
  intro a s
  have hr : s.automaton? ⟨0⟩ = some a := rfl
  have hd : s.graph.DistinctIds a.start := .of_nodup (by decide) (by decide)
  have hword : ∀ x ∈ Symbol.ofText "aa", x.isHashable = true := by decide
  obtain ⟨verdicts, last, verdict, -, hyields, hbyStep, hrun, -⟩ := prefix_verdicts hr hd hword
  have hverdicts : a.prefixVerdicts s.graph (Symbol.ofText "aa") =
      (a, .ok [false, true, true]) := by cbv
  have hfeed : a.reset.feed s.graph (Symbol.ofText "aa") = (a, .ok ()) := by cbv
  have hverdict : a.isAccepting s.graph = true := by cbv
  obtain ⟨rfl, -⟩ := (returns_verdictsByStep hr hverdicts).unique hbyStep
  obtain ⟨rfl, -⟩ := (returns_runWord hr hfeed).unique hrun
  rw [hverdict] at hrun
  exact ⟨hr, hd, hword, last, hyields, hrun⟩

end SessionM

end EpsilonNfa
