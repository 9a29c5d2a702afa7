import EpsilonNfa.Proofs.CommandLine

/-!
# What the command does with any arguments

The command returns one of two codes and nothing else happens to it: it says why it rejects the
arguments and does nothing more, or it builds the automaton of a word and answers all lines
(`CommandLine.run_total`). Which arguments are rejected is the affair of the parser. That nothing is
built is said of the command as an operation on a heap (`CommandLine.execute`).
-/

namespace EpsilonNfa.CommandLine

variable {s : Settings} {parser : Parser} {arguments : List String} {program : String}

/-! ## Rejected arguments -/

/-- The arguments cannot be parsed, or the word has no letter. -/
def Rejects (parser : Parser) (program : String) (arguments : List String) : Prop :=
  (∃ r, parser program arguments = .error r) ∨ ∃ s, parser program arguments = .ok s ∧ s.word = ""

theorem exists_ok_of_not_rejects (h : ¬ Rejects parser program arguments) :
    ∃ s, parser program arguments = .ok s ∧ s.word ≠ "" := by
  cases hparse : parser program arguments with
  | error r => exact absurd (Or.inl ⟨r, hparse⟩) h
  | ok s => exact ⟨s, rfl, fun hempty => h (Or.inr ⟨s, hparse, hempty⟩)⟩

/-- Every rejection is explained, if only by a line break. -/
theorem Rejection.stderr_outcome_ne_empty (r : Rejection) : r.outcome.stderr ≠ "" := by
  simp [outcome, String.append_eq_empty_iff]

/-- Rejected arguments are explained, and that is all: whatever the input is, nothing is read of it,
and the heap stays what it was. -/
theorem exists_returns_of_rejects (hrejects : Rejects parser program arguments) :
    ∃ r : Rejection, ∀ input h,
      Returns (execute parser (program :: arguments) input) h r.outcome h := by
  rcases hrejects with ⟨r, hr⟩ | ⟨s, hs, hempty⟩
  · refine ⟨r, fun input h => ?_⟩
    simp only [execute, hr]
    exact .pure _ h
  · refine ⟨{ message := "word must not be empty." }, fun input h => ?_⟩
    simp only [execute, hs, if_pos hempty]
    exact .pure _ h

/-! ## The two ways to end -/

/-- The command with the settings `s` has come to its end: the automaton of the word was made and
drawn, its listing was printed if that was asked for, and every line was answered. On no line can a
simulation fail. -/
structure Completed (s : Settings) (input : String) (outcome : Outcome) (a : Automaton) (h : Heap) :
    Prop where
  code_eq : outcome.code = 0
  stderr_eq : outcome.stderr = ""
  built : Returns (Automaton.ofWord s.word) {} a h
  drawn : outcome.debug = a.drawing h.graph ++ "\n"
  answered : ∃ answers, answerLines s h.graph a (Text.splitLines input.toList) = .ok answers ∧
    outcome.stdout = (if s.dump then (h.graph.listing a.start).document.render ++ "\n" else "") ++
      answers
  simulated : ∀ line : List Char,
    (∃ verdict, (a.run h.graph (line.map Symbol.ofChar)).2 = .ok verdict) ∧
    ∃ verdicts, (a.prefixVerdicts h.graph (line.map Symbol.ofChar)).2 = .ok verdicts

/-- With a word that has a letter the command comes to its end, whatever its characters are. -/
theorem exists_completed (hword : s.word ≠ "") (input : String) :
    ∃ outcome a h, Returns (serve s input) {} outcome h ∧ Completed s input outcome a h := by
  obtain ⟨a, h, hreturns, ha, -⟩ := Automaton.exists_ofWord hword {}
  refine ⟨_, a, h, returns_serve hreturns ha input, ?_⟩
  exact
    { code_eq := rfl
      stderr_eq := rfl
      built := hreturns
      drawn := rfl
      answered := ⟨_, answerLines_eq ha _, rfl⟩
      simulated := fun line => ⟨⟨_, ha.snd_run line⟩, ⟨_, ha.snd_prefixVerdicts line⟩⟩ }

/-- What the command does with any arguments behind the name of the program, with any input and with
any parser. It returns 0 or 1 and never fails. It returns 1 exactly when the parser rejects the
arguments, a request for help included, or the word is empty; then it says so, draws nothing and
builds nothing, and the input plays no part in what it returns and prints. It returns 0 only without
a complaint, after the automaton was made, drawn and listed and all lines were answered; and so it
ends for every word that has a letter. -/
theorem run_total (parser : Parser) (program : String) (arguments : List String) :
    (∀ input, ∃ outcome, runBy parser (program :: arguments) input = .ok outcome ∧
      (outcome.code = 0 ∨ outcome.code = 1) ∧
      (outcome.code = 1 ↔ (∃ r, parser program arguments = .error r) ∨
        ∃ s, parser program arguments = .ok s ∧ s.word = "") ∧
      (outcome.code = 1 → outcome.stderr ≠ "" ∧ outcome.debug = "" ∧
        ∀ input', runBy parser (program :: arguments) input' = .ok outcome ∧
          ∀ h, Returns (execute parser (program :: arguments) input') h outcome h) ∧
      (outcome.code = 0 → ∃ s a h, parser program arguments = .ok s ∧ s.word ≠ "" ∧
        Returns (execute parser (program :: arguments) input) {} outcome h ∧
        Completed s input outcome a h)) ∧
    ∀ s input, s.word ≠ "" →
      ∃ outcome a h, Returns (serve s input) {} outcome h ∧ Completed s input outcome a h := by
  refine ⟨fun input => ?_, fun s input hword => exists_completed hword input⟩
  by_cases hrejects : Rejects parser program arguments
  · obtain ⟨r, hreturns⟩ := exists_returns_of_rejects hrejects
    exact ⟨r.outcome, runBy_of_returns (hreturns input {}), Or.inr rfl, iff_of_true rfl hrejects,
      fun _ => ⟨r.stderr_outcome_ne_empty, rfl, fun input' =>
        ⟨runBy_of_returns (hreturns input' {}), hreturns input'⟩⟩, nofun⟩
  · obtain ⟨s, hparse, hword⟩ := exists_ok_of_not_rejects hrejects
    obtain ⟨outcome, a, h, hserve, hcompleted⟩ := exists_completed hword input
    rw [← execute_of_ok hparse hword] at hserve
    have hne : outcome.code ≠ 1 := by
      rw [hcompleted.code_eq]
      exact Nat.zero_ne_one
    exact ⟨outcome, runBy_of_returns hserve, Or.inl hcompleted.code_eq,
      iff_of_false hne hrejects, fun hcode => absurd hcode hne,
      fun _ => ⟨s, a, h, hparse, hword, hserve, hcompleted⟩⟩

end EpsilonNfa.CommandLine
