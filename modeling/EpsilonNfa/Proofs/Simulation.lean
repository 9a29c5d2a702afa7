import EpsilonNfa.Proofs.EpsilonClosure
import EpsilonNfa.Proofs.Outcome
import EpsilonNfa.Proofs.Path

/-!
# Simulation and paths

The cursor holds the states reached so far *before* epsilon edges are followed, so after a word it
holds the ends of the paths that read the word and stop with its last letter. One step of the
simulation is one letter more on such paths (`Graph.mem_step`), a whole word is their composition
(`Automaton.mem_current_of_feed`), and the verdict at the end is the existence of a path into a
final state (`Automaton.run_verdict`).
-/

namespace EpsilonNfa

namespace TransitionTable

/-- Among entries with different letters, looking for the letter of one finds that one. -/
theorem find?_entry_of_mem {l : List (Symbol × Ref)} (hl : l.Pairwise fun d e => ¬ d.1.Same e.1)
    {e : Symbol × Ref} (he : e ∈ l) {x : Symbol} (hx : e.1.Same x) :
    (l.find? fun d => d.1.Same x) = some e := by
  induction l with
  | nil => cases he
  | cons d l ih =>
    rw [List.pairwise_cons] at hl
    rcases List.mem_cons.1 he with rfl | he
    · simp [hx]
    · have hne : ¬ d.1.Same x := fun hd => hl.1 e he (hd.trans hx.symm)
      rw [List.find?_cons_of_neg (by simpa using hne)]
      exact ih hl.2 he

theorem find?_eq_some_iff {m : TransitionTable} {x : Symbol} {t : Ref} :
    m.find? x = some t ↔ ∃ y, (y, t) ∈ m.entries ∧ y.Same x := by
  unfold find?
  constructor
  · intro h
    obtain ⟨⟨y, q⟩, he, rfl⟩ := Option.map_eq_some_iff.1 h
    exact ⟨y, List.mem_of_find?_eq_some he, by simpa using List.find?_some he⟩
  · rintro ⟨y, hy, hsame⟩
    rw [find?_entry_of_mem m.distinct hy hsame]
    rfl

end TransitionTable

namespace Graph

variable {g : Graph} {root r s t : Ref} {l : List Ref} {x y : Symbol} {word : List Symbol}

/-! ## One letter -/

/-- The closure of states below `root` is exact where ids tell the states below `root` apart. -/
theorem mem_epsilonClosure_of_distinctIds (hd : g.DistinctIds root)
    (hl : ∀ r ∈ l, g.Reaches root r) :
    t ∈ g.epsilonClosure l ↔ ∃ s ∈ l, g.EpsilonReaches s t := by
  apply mem_epsilonClosure
  intro p q hp hq
  obtain ⟨a, ha, hap⟩ := hp
  obtain ⟨b, hb, hbq⟩ := hq
  exact hd p q ((hl a ha).trans hap.reaches) ((hl b hb).trans hbq.reaches)

theorem noteTarget_of_isHashable (hx : x.isHashable = true) (found : IdMap) (r : Ref) :
    g.noteTarget x found r = .ok (match (g.state r).onSymbol.find? x with
      | some t => found.insert (g.state t).id t
      | none => found) := by
  unfold noteTarget TransitionTable.lookup
  rw [if_pos hx]
  cases (g.state r).onSymbol.find? x <;> rfl

theorem noteTarget_of_not_isHashable (hx : x.isHashable = false) (found : IdMap) (r : Ref) :
    g.noteTarget x found r = .error .unhashable := by
  unfold noteTarget TransitionTable.lookup
  simp only [hx]
  rfl

theorem exists_foldlM_noteTarget (hx : x.isHashable = true) (l : List Ref) (found : IdMap) :
    ∃ found', l.foldlM (g.noteTarget x) found = .ok found' := by
  induction l generalizing found with
  | nil => exact ⟨found, rfl⟩
  | cons r l ih =>
    rw [List.foldlM_cons, noteTarget_of_isHashable hx]
    exact ih _

/-- Noting the targets of a letter from some states adds these targets and nothing else. -/
theorem mem_foldlM_noteTarget (hd : g.DistinctIds root) (hl : ∀ r ∈ l, g.Reaches root r)
    {found found' : IdMap} (hkeyed : found.Keyed g) (hfound : ∀ r ∈ found.values, g.Reaches root r)
    (hrun : l.foldlM (g.noteTarget x) found = .ok found') :
    t ∈ found'.values ↔
      t ∈ found.values ∨ ∃ r ∈ l, ∃ y, (y, t) ∈ (g.state r).onSymbol.entries ∧ y.Same x := by
  induction l generalizing found with
  | nil =>
    cases hrun
    simp
  | cons r l ih =>
    have hrest : ∀ q ∈ l, g.Reaches root q := fun q hq => hl q (List.mem_cons_of_mem _ hq)
    rw [List.foldlM_cons] at hrun
    cases hx : x.isHashable with
    | false =>
      rw [noteTarget_of_not_isHashable hx] at hrun
      cases hrun
    | true =>
      rw [noteTarget_of_isHashable hx] at hrun
      simp only [List.mem_cons, exists_eq_or_imp, ← TransitionTable.find?_eq_some_iff] at ih ⊢
      cases hfind : (g.state r).onSymbol.find? x with
      | none =>
        rw [hfind] at hrun
        rw [ih hrest hkeyed hfound hrun]
        simp
      | some q =>
        rw [hfind] at hrun
        obtain ⟨y, hy, -⟩ := TransitionTable.find?_eq_some_iff.1 hfind
        have hq : g.Reaches root q := (hl r List.mem_cons_self).step_symbol hy
        have hinsert : ∀ {p}, p ∈ (found.insert (g.state q).id q).values ↔
            p ∈ found.values ∨ p = q :=
          hkeyed.mem_values_insert fun p hp hid => hd p q (hfound p hp) hq hid
        have hvalues : ∀ p ∈ (found.insert (g.state q).id q).values, g.Reaches root p := by
          intro p hp
          rcases hinsert.1 hp with hp | rfl
          · exact hfound p hp
          · exact hq
        rw [ih hrest (hkeyed.insert q) hvalues hrun, hinsert, or_assoc, Option.some.injEq,
          eq_comm (a := t)]

theorem exists_step (hx : x.isHashable = true) (l : List Ref) : ∃ l', g.step l x = .ok l' := by
  obtain ⟨found, hrun⟩ := exists_foldlM_noteTarget hx (g.epsilonClosure l) ∅
  refine ⟨found.values, ?_⟩
  unfold step
  rw [hrun]
  rfl

/-- Noting the targets of a letter from the states to which epsilon edges lead, in whatever order
these come, notes the ends of the paths of that letter. -/
theorem mem_values_noteTargets (hd : g.DistinctIds root) (hl : ∀ r ∈ l, g.Reaches root r)
    {closure : List Ref} (hclosure : ∀ {p}, p ∈ closure ↔ ∃ s ∈ l, g.EpsilonReaches s p)
    {found : IdMap} (hrun : closure.foldlM (g.noteTarget x) ∅ = .ok found) :
    t ∈ found.values ↔ ∃ s ∈ l, g.Lands s [x] t := by
  have hbelow : ∀ p ∈ closure, g.Reaches root p := by
    intro p hp
    obtain ⟨s, hs, hsp⟩ := hclosure.1 hp
    exact (hl s hs).trans hsp.reaches
  rw [mem_foldlM_noteTarget hd hbelow .empty (by simp) hrun]
  constructor
  · rintro (h | ⟨p, hp, y, hy, hsame⟩)
    · simp at h
    · obtain ⟨s, hs, hsp⟩ := hclosure.1 hp
      exact ⟨s, hs, .letter hsp hy hsame (.nil t)⟩
  · rintro ⟨s, hs, hlands⟩
    cases hlands with
    | @letter _ p _ _ y _ _ pass edge same rest =>
      cases rest
      exact Or.inr ⟨p, hclosure.2 ⟨s, hs, pass⟩, y, edge, same⟩

/-- A step leads to the ends of the paths of one letter. -/
theorem mem_step (hd : g.DistinctIds root) (hl : ∀ r ∈ l, g.Reaches root r) {l' : List Ref}
    (h : g.step l x = .ok l') : t ∈ l' ↔ ∃ s ∈ l, g.Lands s [x] t := by
  unfold step at h
  obtain ⟨found, hrun, h⟩ := bind_eq_ok.1 h
  cases h
  exact mem_values_noteTargets hd hl (mem_epsilonClosure_of_distinctIds hd hl) hrun

theorem acceptsAt_iff (hd : g.DistinctIds root) (hl : ∀ r ∈ l, g.Reaches root r) :
    g.acceptsAt l = true ↔
      ∃ s ∈ l, ∃ t, g.EpsilonReaches s t ∧ (g.state t).isFinal = true := by
  unfold acceptsAt
  rw [List.any_eq_true]
  constructor
  · rintro ⟨t, ht, hfinal⟩
    obtain ⟨s, hs, hst⟩ := (mem_epsilonClosure_of_distinctIds hd hl).1 ht
    exact ⟨s, hs, t, hst, hfinal⟩
  · rintro ⟨s, hs, t, hst, hfinal⟩
    exact ⟨t, (mem_epsilonClosure_of_distinctIds hd hl).2 ⟨s, hs, hst⟩, hfinal⟩

end Graph

/-! ## Words -/

namespace Automaton

variable {g : Graph} {a a' : Automaton} {root t : Ref} {x : Symbol} {word : List Symbol}

theorem exists_step (hx : x.isHashable = true) (a : Automaton) :
    ∃ l, a.step g x = .ok { a with current := l } := by
  obtain ⟨l, hstep⟩ := Graph.exists_step (g := g) hx a.current
  refine ⟨l, ?_⟩
  unfold step
  rw [hstep]
  rfl

theorem step_eq_ok_iff :
    a.step g x = .ok a' ↔ ∃ l, g.step a.current x = .ok l ∧ a' = { a with current := l } := by
  unfold step
  rw [bind_eq_ok]
  constructor
  · rintro ⟨l, hstep, h⟩
    cases h
    exact ⟨l, hstep, rfl⟩
  · rintro ⟨l, hstep, rfl⟩
    exact ⟨l, hstep, rfl⟩

theorem feed_cons_eq_ok_iff : a.feed g (x :: word) = (a', .ok ()) ↔
    ∃ l, g.step a.current x = .ok l ∧ feed g { a with current := l } word = (a', .ok ()) := by
  rw [feed]
  cases h : a.step g x with
  | error e =>
    constructor
    · intro h'
      cases h'
    · rintro ⟨l, hstep, -⟩
      rw [step_eq_ok_iff.2 ⟨l, hstep, rfl⟩] at h
      cases h
  | ok next =>
    obtain ⟨l, hstep, rfl⟩ := step_eq_ok_iff.1 h
    constructor
    · exact fun hfeed => ⟨l, hstep, hfeed⟩
    · rintro ⟨l', hstep', hfeed⟩
      rw [hstep] at hstep'
      cases hstep'
      exact hfeed

/-- Reading moves the cursor and nothing else, and letters that can key a table are all read. -/
theorem exists_feed (hword : ∀ x ∈ word, x.isHashable = true) (a : Automaton) :
    ∃ l, a.feed g word = ({ a with current := l }, .ok ()) := by
  induction word generalizing a with
  | nil => exact ⟨a.current, rfl⟩
  | cons x word ih =>
    obtain ⟨l, hstep⟩ := Graph.exists_step (g := g) (hword x List.mem_cons_self) a.current
    obtain ⟨l', hfeed⟩ := ih (fun y hy => hword y (List.mem_cons_of_mem _ hy))
      { a with current := l }
    exact ⟨l', feed_cons_eq_ok_iff.2 ⟨l, hstep, hfeed⟩⟩

theorem eq_of_feed (h : a.feed g word = (a', .ok ())) : ∃ l, a' = { a with current := l } := by
  induction word generalizing a with
  | nil =>
    cases h
    exact ⟨_, rfl⟩
  | cons x word ih =>
    obtain ⟨l, -, hfeed⟩ := feed_cons_eq_ok_iff.1 h
    obtain ⟨l', heq⟩ := ih hfeed
    exact ⟨l', heq⟩

/-- After a word the cursor holds the ends of the paths that read it from where the cursor was. -/
theorem mem_current_of_feed (hd : g.DistinctIds root) (hcurrent : ∀ r ∈ a.current, g.Reaches root r)
    (h : a.feed g word = (a', .ok ())) :
    t ∈ a'.current ↔ ∃ s ∈ a.current, g.Lands s word t := by
  induction word generalizing a with
  | nil =>
    cases h
    constructor
    · exact fun ht => ⟨t, ht, .nil t⟩
    · rintro ⟨s, hs, hlands⟩
      cases hlands
      exact hs
  | cons x word ih =>
    obtain ⟨l, hstep, hfeed⟩ := feed_cons_eq_ok_iff.1 h
    have hl : ∀ {q}, q ∈ l ↔ ∃ s ∈ a.current, g.Lands s [x] q := Graph.mem_step hd hcurrent hstep
    have hbelow : ∀ q ∈ l, g.Reaches root q := by
      intro q hq
      obtain ⟨s, hs, hsq⟩ := hl.1 hq
      exact (hcurrent s hs).trans hsq.reaches
    rw [ih hbelow hfeed]
    constructor
    · rintro ⟨q, hq, hqt⟩
      obtain ⟨s, hs, hsq⟩ := hl.1 hq
      exact ⟨s, hs, Graph.lands_cons.2 ⟨q, hsq, hqt⟩⟩
    · rintro ⟨s, hs, hst⟩
      obtain ⟨q, hsq, hqt⟩ := Graph.lands_cons.1 hst
      exact ⟨q, hl.2 ⟨s, hs, hsq⟩, hqt⟩

/-- The cursor stays below `root`. -/
theorem reaches_of_feed (hd : g.DistinctIds root) (hcurrent : ∀ r ∈ a.current, g.Reaches root r)
    (h : a.feed g word = (a', .ok ())) : ∀ r ∈ a'.current, g.Reaches root r := by
  intro q hq
  obtain ⟨s, hs, hsq⟩ := (mem_current_of_feed hd hcurrent h).1 hq
  exact (hcurrent s hs).trans hsq.reaches

/-- After a word the verdict says whether a path that reads it ends in a final state. -/
theorem isAccepting_of_feed (hd : g.DistinctIds root)
    (hcurrent : ∀ r ∈ a.current, g.Reaches root r) (h : a.feed g word = (a', .ok ())) :
    a'.isAccepting g = true ↔ ∃ s ∈ a.current, g.Accepts s word := by
  have hmem : ∀ {q}, q ∈ a'.current ↔ ∃ s ∈ a.current, g.Lands s word q :=
    mem_current_of_feed hd hcurrent h
  unfold isAccepting
  rw [Graph.acceptsAt_iff hd (reaches_of_feed hd hcurrent h)]
  constructor
  · rintro ⟨q, hq, t, hqt, hfinal⟩
    obtain ⟨s, hs, hsq⟩ := hmem.1 hq
    exact ⟨s, hs, t, Graph.reads_iff_lands.2 ⟨q, hsq, hqt⟩, hfinal⟩
  · rintro ⟨s, hs, t, hreads, hfinal⟩
    obtain ⟨q, hsq, hqt⟩ := Graph.reads_iff_lands.1 hreads
    exact ⟨q, hmem.2 ⟨s, hs, hsq⟩, t, hqt, hfinal⟩

theorem run_eq_of_feed (h : a.reset.feed g word = (a', .ok ())) :
    a.run g word = (a', .ok (a'.isAccepting g)) := by
  unfold run
  rw [h]

theorem run_of_isHashable (hword : ∀ x ∈ word, x.isHashable = true) (a : Automaton) :
    ∃ verdict, (a.run g word).2 = .ok verdict := by
  obtain ⟨l, hfeed⟩ := exists_feed (g := g) hword a.reset
  exact ⟨_, by rw [run_eq_of_feed hfeed]⟩

/-- A word is accepted exactly when a path from the start reads it and ends in a final state. -/
theorem run_eq_ok_true_iff (hd : g.DistinctIds a.start) :
    (a.run g word).2 = .ok true ↔ g.Accepts a.start word := by
  have hcurrent : ∀ r ∈ a.reset.current, g.Reaches a.start r := by
    intro r hr
    rw [List.mem_singleton.1 hr]
    exact .refl
  have hstart : (∃ s ∈ a.reset.current, g.Accepts s word) ↔ g.Accepts a.start word := by
    simp [reset]
  constructor
  · intro h
    rcases hfeed : a.reset.feed g word with ⟨a', outcome⟩
    cases outcome with
    | error e => simp [run, hfeed] at h
    | ok =>
      rw [run_eq_of_feed hfeed] at h
      exact hstart.1 ((isAccepting_of_feed hd hcurrent hfeed).1 (Except.ok.inj h))
  · intro h
    obtain ⟨t, hreads, -⟩ := id h
    obtain ⟨l, hfeed⟩ := exists_feed (g := g) hreads.isHashable a.reset
    rw [run_eq_of_feed hfeed, (isAccepting_of_feed hd hcurrent hfeed).2 (hstart.2 h)]

/-- Reading a word from the start tells whether a path from the start reads it and ends in a final
state, wherever the cursor was before. The empty text is a letter that no edge reads. -/
theorem run_verdict (hd : g.DistinctIds a.start) (hword : ∀ x ∈ word, x.isHashable = true) :
    ∃ verdict, (a.run g word).2 = .ok verdict ∧
      (verdict = true ↔ g.Accepts a.start word) ∧
      (Symbol.epsilon ∈ word → verdict = false) := by
  obtain ⟨verdict, hrun⟩ := run_of_isHashable (g := g) hword a
  have hiff : verdict = true ↔ g.Accepts a.start word := by
    rw [← run_eq_ok_true_iff hd, hrun, Except.ok.injEq]
  refine ⟨verdict, hrun, hiff, fun hepsilon => ?_⟩
  rw [Bool.eq_false_iff, ne_eq, hiff]
  rintro ⟨t, hreads, -⟩
  exact hreads.epsilon_not_mem hepsilon

end Automaton

namespace Graph

/-- One letter leads from the first state to the second, which is final, and from there epsilon
edges lead on to both. -/
def loop : Graph where
  states := #[{ id := 0, onSymbol := { entries := [(.text "a", ⟨1⟩)], letters := by decide } },
    { id := 1, isFinal := true, onEpsilon := [⟨1⟩, ⟨0⟩] }]
  closed := by decide

end Graph

/-- A word that goes round the loop, with the cursor at the stop before. -/
theorem Automaton.run_verdict_loop :
    Graph.loop.DistinctIds ⟨0⟩ ∧ (∀ x ∈ Symbol.ofText "aa", x.isHashable = true) ∧
      ∃ verdict, ((Automaton.mk ⟨0⟩ ⟨1⟩ ⟨0⟩ [⟨1⟩]).run Graph.loop (Symbol.ofText "aa")).2 =
          .ok verdict ∧
        (verdict = true ↔ Graph.loop.Accepts ⟨0⟩ (Symbol.ofText "aa")) ∧
        (Symbol.epsilon ∈ Symbol.ofText "aa" → verdict = false) :=
  have hd : Graph.loop.DistinctIds ⟨0⟩ := .of_nodup (by decide) (by decide)
  have hword : ∀ x ∈ Symbol.ofText "aa", x.isHashable = true := by decide
  ⟨hd, hword, run_verdict (a := ⟨⟨0⟩, ⟨1⟩, ⟨0⟩, [⟨1⟩]⟩) hd hword⟩

end EpsilonNfa
