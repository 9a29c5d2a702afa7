import EpsilonNfa.Proofs.Undisturbed

/-!
# Letters that fail

Any value may stand in a word, but a value that holds a list cannot key a table, and looking it up
fails. A reading that comes to such a letter with no state at its cursor has nothing to look it up
in and passes it. So a word fails at most at one of its letters, and what is left behind there is
what a reading of the letters before it leaves (`SessionM.failing_letter`).
-/

namespace EpsilonNfa

variable {g : Graph} {a a' last : Automaton} {word u v : List Symbol} {x : Symbol} {i j : Nat}
variable {letters : List (Symbol × Arrangement × Arrangement)}

/-- A reading from the start comes to the letter at a place with states at its cursor, and the
letter cannot key a table. -/
def Graph.FailsAt (g : Graph) (start : Ref) (word : List Symbol) (i : Nat) : Prop :=
  (g.afterWord start (word.take i)).Nonempty ∧ ∃ x, word[i]? = some x ∧ x.isHashable = false

/-! ## One letter -/

namespace Graph

variable {start root : Ref} {l : List Ref}

theorem epsilonClosure_eq_nil_iff : g.epsilonClosure l = [] ↔ l = [] := by
  obtain ⟨found, hclosure, hsound⟩ := g.exists_sound_epsilonClosure l
  rw [hclosure]
  constructor
  · intro hnil
    rw [List.eq_nil_iff_forall_not_mem]
    intro r hr
    obtain ⟨q, hq⟩ := IdMap.mem_iff_exists_find?.1 (hsound.covers r hr)
    have hvalue : q ∈ found.values := IdMap.mem_values.2 ⟨_, hq⟩
    rw [hnil] at hvalue
    cases hvalue
  · rintro rfl
    rw [List.eq_nil_iff_forall_not_mem]
    intro r hr
    obtain ⟨_, hs, -⟩ := hsound.reached r hr
    cases hs

theorem step_of_not_isHashable (hx : x.isHashable = false) (l : List Ref) :
    g.step l x = if l = [] then .ok [] else .error .unhashable := by
  unfold step
  rw [foldlM_noteTarget_of_not_isHashable hx]
  simp only [epsilonClosure_eq_nil_iff]
  split <;> rfl

/-- Letters that lead anywhere can key a table. -/
theorem isHashable_of_afterWord_nonempty (h : (g.afterWord start word).Nonempty) :
    ∀ y ∈ word, y.isHashable = true := by
  obtain ⟨t, ht⟩ := h
  exact (mem_afterWord.1 ht).reads.isHashable

namespace FailsAt

theorem lt_length (h : g.FailsAt start word i) : i < word.length := by
  obtain ⟨-, x, hx, -⟩ := h
  exact (List.getElem?_eq_some_iff.1 hx).1

theorem isHashable (h : g.FailsAt start word i) : ∀ y ∈ word.take i, y.isHashable = true :=
  isHashable_of_afterWord_nonempty h.1

theorem le (h : g.FailsAt start word i) (h' : g.FailsAt start word j) : j ≤ i := by
  obtain ⟨-, x, hx, hunhashable⟩ := h
  by_contra hlt
  have hmem : x ∈ word.take j := by
    rw [List.mem_take_iff_getElem]
    obtain ⟨hi, hget⟩ := List.getElem?_eq_some_iff.1 hx
    exact ⟨i, by omega, hget⟩
  rw [h'.isHashable x hmem] at hunhashable
  cases hunhashable

/-- A word fails at one letter at most: behind it no state is left at the cursor. -/
theorem unique (h : g.FailsAt start word i) (h' : g.FailsAt start word j) : i = j :=
  Nat.le_antisymm (h'.le h) (h.le h')

theorem append (h : g.FailsAt start u i) (v : List Symbol) : g.FailsAt start (u ++ v) i := by
  have hlt := h.lt_length
  obtain ⟨hbefore, x, hx, hunhashable⟩ := h
  refine ⟨?_, x, ?_, hunhashable⟩
  · rwa [List.take_append_of_le_length (Nat.le_of_lt hlt)]
  · rwa [List.getElem?_append_left hlt]

end FailsAt

end Graph

namespace Automaton

/-- A step fails for one reason only. -/
theorem step_eq_error_iff {e : Error} :
    a.step g x = .error e ↔ e = .unhashable ∧ a.current ≠ [] ∧ x.isHashable = false := by
  cases hx : x.isHashable with
  | true =>
    obtain ⟨l, hstep⟩ := exists_step (g := g) hx a
    rw [hstep]
    simp
  | false =>
    unfold step
    rw [Graph.step_of_not_isHashable hx]
    by_cases hnil : a.current = []
    · simp [hnil, bind, Except.bind, pure, Except.pure]
    · simp [hnil, bind, Except.bind, eq_comm]

namespace HasRead

theorem current_eq_nil_iff (h : a.HasRead g word a') :
    a'.current = [] ↔ ¬ (g.afterWord a.start word).Nonempty := by
  obtain ⟨l, rfl, hl⟩ := h
  rw [List.eq_nil_iff_forall_not_mem, Set.not_nonempty_iff_eq_empty,
    Set.eq_empty_iff_forall_notMem]
  exact forall_congr' fun t => not_congr (hl t)

variable (hd : g.DistinctIds a.start)
include hd

/-- A step that does not fail reads its letter, whether it can key a table or not. -/
theorem of_step (h : a.HasRead g word a') (hstep : a'.step g x = .ok last) :
    a.HasRead g (word ++ [x]) last := by
  obtain ⟨l, hl, rfl⟩ := step_eq_ok_iff.1 hstep
  have hbelow := h.reaches
  obtain ⟨l', rfl, hl'⟩ := h
  refine ⟨l, rfl, fun t => ?_⟩
  rw [Graph.mem_step hd hbelow hl, Graph.mem_afterWord_append]
  simp only [hl']

/-- A letter passes if it can key a table, and also where no state is left to look it up in. -/
theorem step_of_passes (h : a.HasRead g word a')
    (hx : (g.afterWord a.start word).Nonempty → x.isHashable = true) :
    ∃ a'', a'.step g x = .ok a'' ∧ a.HasRead g (word ++ [x]) a'' := by
  cases hstep : a'.step g x with
  | ok a'' => exact ⟨a'', rfl, h.of_step hd hstep⟩
  | error e =>
    obtain ⟨-, hcurrent, hunhashable⟩ := step_eq_error_iff.1 hstep
    have hnonempty := not_not.1 (mt h.current_eq_nil_iff.2 hcurrent)
    rw [hx hnonempty] at hunhashable
    cases hunhashable

end HasRead

/-! ## Words -/

section Words

variable (hd : g.DistinctIds a.start)
include hd

theorem feed_of_forall_not_failsAt (h : ∀ i, ¬ g.FailsAt a.start word i) :
    ∃ last, a.reset.feed g word = (last, .ok ()) ∧ a.HasRead g word last := by
  induction word using List.reverseRecOn with
  | nil => exact ⟨a.reset, rfl, hasRead_reset g a⟩
  | append_singleton word x ih =>
    obtain ⟨b, hfeed, hread⟩ := ih fun i hi => h i (hi.append [x])
    have hpasses : (g.afterWord a.start word).Nonempty → x.isHashable = true := by
      intro hnonempty
      by_contra hx
      refine h word.length ⟨?_, x, ?_, by simpa using hx⟩
      · rwa [List.take_left]
      · rw [List.getElem?_append_right (Nat.le_refl _), Nat.sub_self]
        rfl
    obtain ⟨last, hstep, hlast⟩ := hread.step_of_passes hd hpasses
    refine ⟨last, ?_, hlast⟩
    rw [feed_append hfeed, feed, hstep]
    rfl

/-- A word that fails is read up to the letter where it does. -/
theorem feed_of_failsAt (h : g.FailsAt a.start word i) :
    ∃ last, a.reset.feed g (word.take i) = (last, .ok ()) ∧
      (∀ y rest, word.drop i = y :: rest → last.step g y = .error .unhashable) ∧
      a.reset.feed g word = (last, .error .unhashable) := by
  obtain ⟨last, hfeed, hread⟩ := (a.hasRead_reset g).feed hd h.isHashable
  obtain ⟨hbefore, x, hx, hunhashable⟩ := h
  obtain ⟨hlt, hget⟩ := List.getElem?_eq_some_iff.1 hx
  have hdrop : word.drop i = x :: word.drop (i + 1) := by
    rw [List.drop_eq_getElem_cons hlt, hget]
  have hcurrent : last.current ≠ [] := fun hnil => hread.current_eq_nil_iff.1 hnil hbefore
  have hstep : last.step g x = .error .unhashable :=
    step_eq_error_iff.2 ⟨rfl, hcurrent, hunhashable⟩
  refine ⟨last, hfeed, fun y rest hy => ?_, ?_⟩
  · rw [hdrop] at hy
    cases hy
    exact hstep
  · have hfails := feed_append hfeed (v := word.drop i)
    rw [List.take_append_drop] at hfails
    rw [hfails, hdrop, feed, hstep]

/-- Reading fails at a letter or not at all. -/
theorem snd_feed_eq_error_iff {e : Error} :
    (a.reset.feed g word).2 = .error e ↔ e = .unhashable ∧ ∃ i, g.FailsAt a.start word i := by
  by_cases h : ∃ i, g.FailsAt a.start word i
  · obtain ⟨i, hi⟩ := h
    obtain ⟨last, -, -, hfeed⟩ := feed_of_failsAt hd hi
    rw [hfeed]
    constructor
    · rintro ⟨⟩
      exact ⟨rfl, i, hi⟩
    · rintro ⟨rfl, -⟩
      rfl
  · obtain ⟨last, hfeed, -⟩ := feed_of_forall_not_failsAt hd fun i hi => h ⟨i, hi⟩
    rw [hfeed]
    constructor
    · rintro ⟨⟩
    · rintro ⟨-, hi⟩
      exact absurd hi h

theorem snd_run_eq_error_iff {e : Error} :
    (a.run g word).2 = .error e ↔ e = .unhashable ∧ ∃ i, g.FailsAt a.start word i := by
  rw [← snd_feed_eq_error_iff hd, run]
  rcases a.reset.feed g word with ⟨b, _ | _⟩ <;> simp

end Words

/-- Whatever the orders in which its steps go through their sets, a reading comes to the same set of
states or fails with the same error. -/
theorem feedVia_of_feed {root : Ref} {l : List Ref} (hd : g.DistinctIds root)
    (letters : List (Symbol × Arrangement × Arrangement))
    (hbelow : ∀ r ∈ a.current, g.Reaches root r) (hsame : ∀ t, t ∈ l ↔ t ∈ a.current) :
    (∀ a', a.feed g (letters.map (·.1)) = (a', .ok ()) →
      ∃ l', feedVia g { a with current := l } letters = .ok { a with current := l' } ∧
        ∀ t, t ∈ l' ↔ t ∈ a'.current) ∧
    ∀ a' e, a.feed g (letters.map (·.1)) = (a', .error e) →
      feedVia g { a with current := l } letters = .error e := by
  induction letters generalizing a l with
  | nil =>
    refine ⟨fun a' h => ?_, fun a' e h => ?_⟩
    · cases h
      exact ⟨l, rfl, hsame⟩
    · cases h
  | cons letter letters ih =>
    obtain ⟨x, p, q⟩ := letter
    have hstep := Graph.sameSet_stepVia hd hbelow hsame p q x
    rw [List.map_cons, feed, step, feedVia]
    cases hdirect : g.step a.current x with
    | error e =>
      rw [hdirect] at hstep
      rw [hstep.eq_of_error]
      refine ⟨fun a' h => ?_, fun a' e' h => ?_⟩
      · cases h
      · cases h
        rfl
    | ok current =>
      rw [hdirect] at hstep
      obtain ⟨l', hvia, hl'⟩ := hstep.exists_of_ok
      have hcurrent : ∀ r ∈ current, g.Reaches root r := by
        intro r hr
        obtain ⟨s, hs, hlands⟩ := (Graph.mem_step hd hbelow hdirect).1 hr
        exact (hbelow s hs).trans hlands.reaches
      rw [hvia]
      exact ih (a := { a with current }) hcurrent hl'

theorem reaches_reset_current (g : Graph) (a : Automaton) :
    ∀ r ∈ a.reset.current, g.Reaches a.start r := by
  intro r hr
  rw [List.mem_singleton.1 hr]
  exact .refl

theorem feedVia_eq_error_iff (hd : g.DistinctIds a.start) {e : Error} :
    a.reset.feedVia g letters = .error e ↔
      e = .unhashable ∧ ∃ i, g.FailsAt a.start (letters.map (·.1)) i := by
  obtain ⟨hreads, hfails⟩ := feedVia_of_feed (a := a.reset) hd letters
    (reaches_reset_current g a) fun _ => Iff.rfl
  rw [← snd_feed_eq_error_iff hd]
  rcases hfeed : a.reset.feed g (letters.map (·.1)) with ⟨b, e' | _⟩
  · have hvia : a.reset.feedVia g letters = .error e' := hfails b e' hfeed
    rw [hvia, hfeed]
    simp
  · obtain ⟨l, hl, -⟩ := hreads b hfeed
    have hvia : a.reset.feedVia g letters = .ok { a.reset with current := l } := hl
    rw [hvia, hfeed]
    simp

end Automaton

namespace SessionM

variable {s : Session} {r : AutomatonRef}

/-- A step that fails leaves all as it was. -/
theorem fails_step_iff (hr : s.automaton? r = some a) {e : Error} {s' : Session} :
    Fails (step r x) s e s' ↔
      e = .unhashable ∧ s' = s ∧ a.current ≠ [] ∧ x.isHashable = false := by
  rw [Fails, run_step hr]
  cases hstep : a.step s.graph x with
  | ok a' =>
    constructor
    · rintro ⟨⟩
    · rintro ⟨rfl, -, hx⟩
      cases hstep.symm.trans (Automaton.step_eq_error_iff.2 ⟨rfl, hx⟩)
  | error e' =>
    obtain ⟨rfl, hx⟩ := Automaton.step_eq_error_iff.1 hstep
    constructor
    · rintro ⟨⟩
      exact ⟨rfl, rfl, hx⟩
    · rintro ⟨rfl, rfl, -⟩
      rfl

theorem run_runWord (hr : s.automaton? r = some a) (word : List Symbol) :
    (runWord r word).run.run s = ((a.run s.graph word).2, s.put r (a.run s.graph word).1) :=
  run_simulate hr _

/-- A walk over the prefixes of a word that fails gives a verdict for each prefix that is read, the
failing letter fails the next pull, and then the walk has ended. -/
theorem exists_gives_of_failsAt (hr : s.automaton? r = some a) (hd : s.graph.DistinctIds a.start)
    (h : s.graph.FailsAt a.start word i) :
    ∃ last walk walk', a.reset.feed s.graph (word.take i) = (last, .ok ()) ∧
      (Walk.verdictsOf r word).Gives s ((List.range (i + 1)).map fun j =>
        .verdict ((a.reset.feed s.graph (word.take j)).1.isAccepting s.graph))
        walk (s.put r last) ∧
      walk.next? (s.put r last) = (.error .unhashable, walk', s.put r last) ∧
      walk'.next? (s.put r last) = (.ok none, walk', s.put r last) := by
  obtain ⟨last, hfeed, hstep, -⟩ := Automaton.feed_of_failsAt hd h
  have hlt := h.lt_length
  have hlast := Session.automaton?_put_self hr last
  have hput : (s.put r last).put r last = s.put r last := Session.put_self hlast
  have hgives := Walk.gives_verdictsOf hr
    (Automaton.prefixVerdicts_eq h.isHashable hfeed) (word.drop i)
  rw [List.take_append_drop, List.length_take_of_le (Nat.le_of_lt hlt), List.map_map] at hgives
  refine ⟨last, .verdicts r (.reading (word.drop i)), .verdicts r .finished, hfeed, ?_, ?_, ?_⟩
  · have htake : ∀ j ∈ List.range (i + 1), (word.take i).take j = word.take j := by
      intro j hj
      rw [List.take_take, Nat.min_eq_left (Nat.lt_succ_iff.1 (List.mem_range.1 hj))]
    rwa [List.map_congr_left fun j hj => by rw [Function.comp_apply, htake j hj]] at hgives
  · have hdrop := List.drop_eq_getElem_cons hlt
    have hfails : last.step (s.put r last).graph word[i] = .error .unhashable := hstep _ _ hdrop
    rw [Walk.next?_verdicts hlast, hdrop, PrefixWalk.next?, hfails, hput]
    rfl
  · rw [Walk.next?_verdicts hlast, PrefixWalk.next?, hput]
    rfl

/-- Where ids tell states apart, a reading fails just where it comes to a letter that cannot key a
table with states at its cursor, whatever the orders in which its steps go through their sets. A
word has at most one such letter. A reading leaves the cursor there just as a reading of the letters
before it does, a walk over the prefixes gives the verdicts on all of these letters and fails at the
next pull, and asking for the verdict fails in the same cases and leaves the cursor where it was. A
step fails only there as well, and moves nothing. -/
theorem failing_letter (hr : s.automaton? r = some a) (hd : s.graph.DistinctIds a.start)
    (word : List Symbol) :
    ((∃ e s', Fails (runWord r word) s e s') ↔ ∃ i, s.graph.FailsAt a.start word i) ∧
    ((∃ e s', Fails (accepts r word) s e s') ↔ ∃ i, s.graph.FailsAt a.start word i) ∧
    ((accepts r word).run.run s).2 = s ∧
    (∀ letters, letters.map (·.1) = word →
      ((∃ e, a.reset.feedVia s.graph letters = .error e) ↔
        ∃ i, s.graph.FailsAt a.start word i)) ∧
    (∀ i, s.graph.FailsAt a.start word i →
      (∀ j, s.graph.FailsAt a.start word j → j = i) ∧
      ∃ (verdicts : List Bool) (last : Automaton) (walk walk' : Walk) (verdict : Bool),
        Fails (runWord r word) s .unhashable (s.put r last) ∧
        Returns (runWord r (word.take i)) s verdict (s.put r last) ∧
        (∀ letters, letters.map (·.1) = word.take i →
          ∃ b, a.reset.feedVia s.graph letters = .ok b ∧ ∀ t, t ∈ b.current ↔ t ∈ last.current) ∧
        Fails (accepts r word) s .unhashable s ∧
        (Walk.verdictsOf r word).Gives s (verdicts.map .verdict) walk (s.put r last) ∧
        walk.next? (s.put r last) = (.error .unhashable, walk', s.put r last) ∧
        walk'.next? (s.put r last) = (.ok none, walk', s.put r last) ∧
        verdicts.length = i + 1 ∧
        ∀ j (hj : j < verdicts.length), ∃ b,
          Returns (runWord r (word.take j)) s verdicts[j] (s.put r b)) ∧
    ∀ x, ((∃ e s', Fails (step r x) s e s') ↔ a.current ≠ [] ∧ x.isHashable = false) ∧
      ∀ e s', Fails (step r x) s e s' → e = .unhashable ∧ s' = s := by
  refine ⟨?_, ?_, by rw [run_accepts hr], fun letters hletters => ?_,
    fun i hi => ⟨fun j hj => hj.unique hi, ?_⟩, fun x => ⟨?_, fun e s' h => ?_⟩⟩
  · rw [exists_fails_iff, run_runWord hr]
    simp only [Automaton.snd_run_eq_error_iff hd, exists_eq_left]
  · rw [exists_fails_iff, run_accepts hr]
    exact (exists_congr fun e => Automaton.snd_run_eq_error_iff hd).trans exists_eq_left
  · simp only [Automaton.feedVia_eq_error_iff hd, hletters, exists_eq_left]
  · obtain ⟨last, walk, walk', hfeed, hgives, hpull, hended⟩ := exists_gives_of_failsAt hr hd hi
    obtain ⟨last', hfeed', -, hfails⟩ := Automaton.feed_of_failsAt hd hi
    cases hfeed.symm.trans hfeed'
    refine ⟨_, last, walk, walk', last.isAccepting s.graph, ?_, returns_runWord hr hfeed,
      fun letters hletters => ?_, ?_, by rwa [List.map_map], hpull, hended,
      by rw [List.length_map, List.length_range], fun j hj => ?_⟩
    · rw [Fails, run_runWord hr, Automaton.run, hfails]
    · obtain ⟨hreads, -⟩ := Automaton.feedVia_of_feed (a := a.reset) hd letters
        (a.reaches_reset_current s.graph) fun _ => Iff.rfl
      rw [hletters] at hreads
      obtain ⟨l, hl, hsame⟩ := hreads last hfeed
      exact ⟨_, hl, hsame⟩
    · have hverdict : a.accepts s.graph word = .error .unhashable :=
        (Automaton.snd_run_eq_error_iff (a := .ofStates a.start a.stop a.ids) hd).2 ⟨rfl, i, hi⟩
      rw [Fails, run_accepts hr, hverdict]
    · rw [List.length_map, List.length_range] at hj
      have hprefix : ∀ y ∈ word.take j, y.isHashable = true := fun y hy =>
        hi.isHashable y (List.take_subset_take_left word (Nat.lt_succ_iff.1 hj) hy)
      obtain ⟨b, hb, -⟩ := (a.hasRead_reset s.graph).feed hd hprefix
      rw [List.getElem_map, List.getElem_range, hb]
      exact ⟨b, returns_runWord hr hb⟩
  · simp [fails_step_iff hr]
  · obtain ⟨he, hs, -⟩ := (fails_step_iff hr).1 h
    exact ⟨he, hs⟩

/-- Round the loop, with a list inside the second letter. The third one is never read. -/
theorem failing_letter_loop :
    let a : Automaton := ⟨⟨0⟩, ⟨1⟩, ⟨0⟩, [⟨1⟩]⟩
    let s : Session := { heap := { graph := .loop, nextIds := #[2] }, automata := #[a] }
    let word : List Symbol := [.text "a", .tuple [.int 1, .list []], .text "a"]
    s.automaton? ⟨0⟩ = some a ∧ s.graph.DistinctIds a.start ∧
      s.graph.FailsAt a.start word 1 ∧
      ∃ (last : Automaton) (verdict : Bool),
        Fails (runWord ⟨0⟩ word) s .unhashable (s.put ⟨0⟩ last) ∧
        Returns (runWord ⟨0⟩ (Symbol.ofText "a")) s verdict (s.put ⟨0⟩ last) ∧
        Fails (accepts ⟨0⟩ word) s .unhashable s := by
  intro a s word
  have hr : s.automaton? ⟨0⟩ = some a := rfl
  have hd : s.graph.DistinctIds a.start := .of_nodup (by decide) (by decide)
  have hlands : s.graph.Lands a.start (Symbol.ofText "a") ⟨1⟩ :=
    .letter .refl (List.mem_singleton.2 rfl) (.refl _) (.nil ⟨1⟩)
  have hfails : s.graph.FailsAt a.start word 1 :=
    ⟨⟨⟨1⟩, Graph.mem_afterWord.2 hlands⟩, _, rfl, by decide⟩
  obtain ⟨-, -, -, -, hplaces, -⟩ := failing_letter hr hd word
  obtain ⟨-, _, last, _, _, verdict, hrun, hprefix, -, haccepts, -⟩ := hplaces 1 hfails
  exact ⟨hr, hd, hfails, last, verdict, hrun, hprefix, haccepts⟩

end SessionM

end EpsilonNfa
