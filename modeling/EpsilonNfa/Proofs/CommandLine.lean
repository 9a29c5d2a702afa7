import EpsilonNfa.CommandLine.Run
import EpsilonNfa.Proofs.WordListing

/-!
# What the command prints

One automaton serves all lines of the input, and its cursor is left where the last line ended. Every
reading begins at the start, so the answer to a line depends on the line alone
(`CommandLine.answerLine_eq`), and with the automaton of the word it says which prefixes of the line
are the word. All that a run prints is so known from the settings and the input
(`CommandLine.run_of_settings`); how a parser comes to the settings plays no part in it.
-/

namespace EpsilonNfa

variable {h : Heap} {a : Automaton} {g : Graph} {word : List Symbol}

namespace Automaton

/-! ## Verdicts at prefixes -/

theorem fst_verdictsAfter (g : Graph) (a : Automaton) (word : List Symbol) :
    (a.verdictsAfter g word).1 = (a.feed g word).1 := by
  induction word generalizing a with
  | nil => rfl
  | cons x word ih =>
    rw [verdictsAfter, feed]
    cases a.step g x with
    | error e => rfl
    | ok next => exact ih next

theorem snd_verdictsAfter (hword : ∀ x ∈ word, x.isHashable = true) (a : Automaton) :
    (a.verdictsAfter g word).2 =
      .ok ((List.range word.length).map fun i => (a.feed g (word.take (i + 1))).1.isAccepting g) := by
  induction word generalizing a with
  | nil => rfl
  | cons x word ih =>
    obtain ⟨l, hstep⟩ := exists_step (g := g) (hword x List.mem_cons_self) a
    have hfeed : ∀ v, a.feed g (x :: v) = feed g { a with current := l } v := by
      intro v
      rw [feed, hstep]
    rw [verdictsAfter, hstep]
    simp only [List.length_cons, List.range_succ_eq_map, List.map_cons, List.map_map,
      List.take_succ_cons, hfeed]
    rw [ih fun y hy => hword y (List.mem_cons_of_mem _ hy)]
    rfl

/-- The verdicts are those at all beginnings of the word, each read from the start. -/
theorem snd_prefixVerdicts (hword : ∀ x ∈ word, x.isHashable = true) (a : Automaton) :
    (a.prefixVerdicts g word).2 =
      .ok ((List.range (word.length + 1)).map fun i =>
        (a.reset.feed g (word.take i)).1.isAccepting g) := by
  unfold prefixVerdicts
  simp only [snd_verdictsAfter hword, List.range_succ_eq_map, List.map_cons, List.map_map]
  rfl

theorem Tracked.prefixVerdicts (ha : a.Tracked g) (word : List Symbol) :
    a.MovesTo g (a.prefixVerdicts g word).1 := by
  have hreset : a.MovesTo g a.reset := .reset g a
  show a.MovesTo g (a.reset.verdictsAfter g word).1
  rw [fst_verdictsAfter]
  exact hreset.trans ((hreset.tracked ha).feed word)

end Automaton

/-! ## Answers -/

namespace Symbol

theorem map_ofChar_injective : Function.Injective (List.map ofChar) := by
  refine List.map_injective_iff.2 fun c d heq => ?_
  have hlist := congrArg String.toList (Symbol.text.inj heq)
  simpa using hlist

theorem isHashable_of_mem_map_ofChar (text : List Char) :
    ∀ x ∈ text.map ofChar, x.isHashable = true := by
  intro x hx
  obtain ⟨c, -, rfl⟩ := List.mem_map.1 hx
  rfl

end Symbol

namespace Automaton.Spells

variable {content : String}

/-- From the start, the word of the automaton and no other is accepted. -/
theorem isAccepting_feed (ha : a.Spells h (Symbol.ofText content)) (text : List Char) :
    (a.reset.feed h.graph (text.map Symbol.ofChar)).1.isAccepting h.graph =
      decide (text = content.toList) := by
  obtain ⟨l, hfeed⟩ := exists_feed (g := h.graph) (Symbol.isHashable_of_mem_map_ofChar text) a.reset
  have hrun := ha.denotes.run_iff (text.map Symbol.ofChar)
  rw [run_eq_of_feed hfeed, Symbol.forall₂_same_ofText, Except.ok.injEq] at hrun
  rw [hfeed, Bool.eq_iff_iff, hrun, decide_eq_true_eq]
  exact Symbol.map_ofChar_injective.eq_iff

theorem snd_run (ha : a.Spells h (Symbol.ofText content)) (text : List Char) :
    (a.run h.graph (text.map Symbol.ofChar)).2 = .ok (decide (text = content.toList)) := by
  obtain ⟨l, hfeed⟩ := exists_feed (g := h.graph) (Symbol.isHashable_of_mem_map_ofChar text) a.reset
  have haccepting := ha.isAccepting_feed text
  rw [hfeed] at haccepting
  rw [run_eq_of_feed hfeed, haccepting]

theorem snd_prefixVerdicts (ha : a.Spells h (Symbol.ofText content)) (text : List Char) :
    (a.prefixVerdicts h.graph (text.map Symbol.ofChar)).2 =
      .ok ((List.range (text.length + 1)).map fun i => decide (text.take i = content.toList)) := by
  rw [Automaton.snd_prefixVerdicts (Symbol.isHashable_of_mem_map_ofChar text), List.length_map]
  simp only [← List.map_take, ha.isAccepting_feed]

end Automaton.Spells

namespace CommandLine

variable {s : Settings} {line : List Char}
variable {parser : Parser} {program : String} {arguments : List String}

/-- The answer to a line: whether it is the word, or which of its beginnings are. -/
def Settings.answerTo (s : Settings) (line : List Char) : String :=
  if s.prefixes then
    " ".intercalate ((List.range (line.length + 1)).map fun i =>
      if line.take i = s.word.toList then "YES" else "NO") ++ "\n"
  else (if line = s.word.toList then "YES" else "NO") ++ "\n"

theorem verdictText_decide (p : Prop) [Decidable p] :
    verdictText (decide p) = if p then "YES" else "NO" := by
  by_cases hp : p <;> simp [verdictText, hp]

/-- The answer does not depend on where the cursor was left. -/
theorem answerLine_eq (ha : a.Spells h (Symbol.ofText s.word)) (line : List Char) :
    ∃ a', answerLine s h.graph a line = .ok (a', s.answerTo line) ∧
      a'.Spells h (Symbol.ofText s.word) := by
  unfold answerLine Settings.answerTo
  cases s.prefixes with
  | true =>
    refine ⟨_, ?_, ha.movesTo (ha.tracked.prefixVerdicts (line.map Symbol.ofChar))⟩
    simp only [ha.snd_prefixVerdicts, if_true]
    show Except.ok (_, " ".intercalate (List.map verdictText (List.map _ _)) ++ "\n") = _
    simp only [List.map_map, Function.comp_def, verdictText_decide]
  | false =>
    refine ⟨_, ?_, ha.movesTo (ha.tracked.run (line.map Symbol.ofChar))⟩
    simp only [ha.snd_run]
    show Except.ok (_, verdictText _ ++ "\n") = _
    rw [verdictText_decide]
    rfl

theorem answerLines_eq (ha : a.Spells h (Symbol.ofText s.word)) (lines : List (List Char)) :
    answerLines s h.graph a lines = .ok (String.join (lines.map s.answerTo)) := by
  induction lines generalizing a with
  | nil => rfl
  | cons line lines ih =>
    -- the next line finds an automaton that spells the word, wherever its cursor is
    obtain ⟨a', hanswer, ha'⟩ := answerLine_eq ha line
    rw [answerLines, hanswer, List.map_cons, String.join_cons]
    show (answerLines s h.graph a' lines >>= fun answers => .ok (s.answerTo line ++ answers)) = _
    rw [ih ha']
    rfl

/-! ## What is printed -/

/-- The automaton of the word serves, in whatever heap it is made. -/
theorem returns_serve {h₀ : Heap} (hreturns : Returns (Automaton.ofWord s.word) h₀ a h)
    (ha : a.Spells h (Symbol.ofText s.word)) (input : String) :
    Returns (serve s input) h₀
      { code := 0
        stdout := (if s.dump then (h.graph.listing a.start).document.render ++ "\n" else "") ++
          String.join ((Text.splitLines input.toList).map s.answerTo)
        debug := a.drawing h.graph ++ "\n" } h :=
  hreturns.bind (.bind (.get h) (.bind (.lift (answerLines_eq ha _) h) (.pure _ h)))

theorem execute_of_ok (hparse : parser program arguments = .ok s) (hword : s.word ≠ "")
    (input : String) : execute parser (program :: arguments) input = serve s input := by
  simp only [execute, hparse, if_neg hword]

theorem runBy_of_returns {input : String} {outcome : Outcome}
    (hreturns : Returns (execute parser arguments input) {} outcome h) :
    runBy parser arguments input = .ok outcome := by
  unfold Returns at hreturns
  rw [runBy, hreturns]

/-- What the command does with arguments that ask for a word, whatever parser reads them. The
document of the automaton of the word is known from the word: it has a number for each of its two
states a letter and a transition from each number but the last to the next, and the labels of the
transitions that read something are the letters of the word in their order. The command prints this
document if that is asked for, and then one answer for each line, which depends on nothing but the
line and the settings. It never complains. -/
theorem run_of_settings (hparse : parser program arguments = .ok s) (hword : s.word ≠ "")
    (input : String) :
    ∃ (a : Automaton) (h : Heap) (letters : List Char) (labels : List String)
      (document : Text.Document), Returns (Automaton.ofWord s.word) {} a h ∧
      (h.graph.listing a.start).document = document ∧
      document = .record [
        ("states", .list ((List.range' 1 (2 * s.word.length)).map fun k => .text (toString k))),
        ("letters", .list (letters.map fun c => .text (String.singleton c))),
        ("transition_function", .list ((labels.zipIdx 1).map fun x =>
          .list [.text (toString x.2), .text x.1, .text (toString (x.2 + 1))])),
        ("start_states", .list [.text "1"]),
        ("final_states", .list [.text (toString (2 * s.word.length))])] ∧
      letters.Pairwise (· < ·) ∧ (∀ c, c ∈ letters ↔ c ∈ s.word.toList) ∧
      labels = (s.word.toList.map String.singleton).intersperse "" ∧
      labels.filter (· ≠ "") = s.word.toList.map String.singleton ∧
      runBy parser (program :: arguments) input = .ok
        { code := 0
          stdout := (if s.dump then document.render ++ "\n" else "") ++
            String.join ((Text.splitLines input.toList).map s.answerTo)
          stderr := ""
          debug := a.drawing h.graph ++ "\n" } := by
  obtain ⟨a, h, hreturns, ha, -⟩ := Automaton.exists_ofWord hword {}
  obtain ⟨letters, hsorted, hmem, hletters⟩ := ha.exists_letters_listing
  have hserve := returns_serve hreturns ha input
  rw [← execute_of_ok hparse hword] at hserve
  exact ⟨a, h, letters, Symbol.wordLabels s.word, _, hreturns, rfl, ha.document_listing hletters,
    hsorted, hmem, rfl, Symbol.filter_wordLabels s.word, runBy_of_returns hserve⟩

/-- Verdicts at the prefixes of two lines, below the document of the automaton, and a word of two
dashes, which the new release takes from an argument. -/
theorem run_of_settings_dump :
    (Release.old.parser "match" ["--word", "ba", "--prefixes", "--dump"] =
        .ok { word := "ba", prefixes := true, dump := true } ∧ "ba" ≠ "" ∧
      ∃ debug, run ["match", "--word", "ba", "--prefixes", "--dump"] "bac\nb" = .ok
        { code := 0
          stdout := Text.Document.render (.record [
            ("states", .list [.text "1", .text "2", .text "3", .text "4"]),
            ("letters", .list [.text "a", .text "b"]),
            ("transition_function", .list [
              .list [.text "1", .text "b", .text "2"],
              .list [.text "2", .text "", .text "3"],
              .list [.text "3", .text "a", .text "4"]]),
            ("start_states", .list [.text "1"]),
            ("final_states", .list [.text "4"])]) ++ "\n" ++ "NO NO YES NO\nNO NO\n"
          debug }) ∧
    Release.new.parser "match" ["--word=--"] = .ok { word := "--" } ∧ "--" ≠ "" ∧
      ∃ debug, runBy Release.new.parser ["match", "--word=--"] "--\n-" = .ok
        { code := 0, stdout := "YES\nNO\n", debug } := by
  have hdump : Release.old.parser "match" ["--word", "ba", "--prefixes", "--dump"] =
      .ok { word := "ba", prefixes := true, dump := true } := by decide
  have hdashes : Release.new.parser "match" ["--word=--"] = .ok { word := "--" } := by decide
  have hanswers : String.join ((Text.splitLines "bac\nb".toList).map
      ({ word := "ba", prefixes := true, dump := true } : Settings).answerTo) =
        "NO NO YES NO\nNO NO\n" := by decide
  have hanswers' : String.join ((Text.splitLines "--\n-".toList).map
      ({ word := "--" } : Settings).answerTo) = "YES\nNO\n" := by decide
  obtain ⟨_, _, letters, _, _, -, -, rfl, hsorted, hmem, rfl, -, hrun⟩ :=
    run_of_settings hdump (by decide) "bac\nb"
  obtain ⟨_, _, _, _, _, -, -, -, -, -, -, -, hrun'⟩ :=
    run_of_settings hdashes (by decide) "--\n-"
  have hletters : letters = ['a', 'b'] :=
    hsorted.eq_of_mem_iff (by decide) fun c =>
      (hmem c).trans (List.Perm.swap 'a' 'b' []).mem_iff
  rw [hanswers, hletters] at hrun
  rw [hanswers'] at hrun'
  exact ⟨⟨hdump, by decide, _, hrun⟩, hdashes, by decide, _, hrun'⟩

end CommandLine

end EpsilonNfa
