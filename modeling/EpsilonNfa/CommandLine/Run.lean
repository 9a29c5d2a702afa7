import EpsilonNfa.Automaton.Combinators
import EpsilonNfa.Automaton.Simulation
import EpsilonNfa.CommandLine.Usage
import EpsilonNfa.Export.Drawing
import EpsilonNfa.Export.Listing
import EpsilonNfa.Text.Lines

/-!
# The command

The command builds the automaton of a word and reads every line of its input with it. It answers a
line by one verdict, or by the verdicts at all prefixes of the line. One automaton serves all lines.
-/

namespace EpsilonNfa.CommandLine

/-- What a run of the command leaves behind. -/
structure Outcome where
  code : Nat
  /-- The answers. -/
  stdout : String := ""
  /-- Complaints about the arguments. -/
  stderr : String := ""
  /-- The drawing of the automaton. -/
  debug : String := ""
deriving DecidableEq, Repr

def verdictText (accepted : Bool) : String :=
  if accepted then "YES" else "NO"

/-- The answer to one line, with the automaton after it. -/
def answerLine (s : Settings) (g : Graph) (a : Automaton) (line : List Char) :
    Except Error (Automaton × String) :=
  let word := line.map Symbol.ofChar
  if s.prefixes then
    match a.prefixVerdicts g word with
    | (a, verdicts) => do return (a, " ".intercalate ((← verdicts).map verdictText) ++ "\n")
  else
    match a.run g word with
    | (a, verdict) => do return (a, verdictText (← verdict) ++ "\n")

/-- The answers to all lines, each read with the automaton that the line before it left. -/
def answerLines (s : Settings) (g : Graph) : Automaton → List (List Char) → Except Error String
  | _, [] => .ok ""
  | a, line :: lines => do
    let (a, answer) ← answerLine s g a line
    return answer ++ (← answerLines s g a lines)

/-- Runs the command with settings that were accepted. The automaton stays in the heap. -/
def serve (s : Settings) (input : String) : HeapM Outcome := do
  let a ← Automaton.ofWord s.word
  let g := (← get).graph
  let listing := if s.dump then (g.listing a.start).document.render ++ "\n" else ""
  let answers ← answerLines s g a (Text.splitLines input.toList)
  return { code := 0, stdout := listing ++ answers, debug := a.drawing g ++ "\n" }

/-- What a run leaves behind whose arguments are rejected: the text of the error stands in a line at
the end of the complaints. -/
def Rejection.outcome (r : Rejection) : Outcome :=
  { code := 1, stdout := r.stdout, stderr := r.stderr ++ r.message ++ "\n" }

/-- Runs the command with arguments that a parser reads. The first argument is the name of the
program. -/
def execute (parser : Parser) (arguments : List String) (input : String) : HeapM Outcome :=
  match arguments with
  | [] => throw .missingProgramName
  | program :: arguments =>
    match parser program arguments with
    | .error r => return r.outcome
    | .ok s =>
      if s.word = "" then return Rejection.outcome { message := "word must not be empty." }
      else serve s input

/-- Runs the command from the beginning, when there are no states yet. -/
def runBy (parser : Parser) (arguments : List String) (input : String) : Except Error Outcome :=
  ((execute parser arguments input).run.run {}).1

/-- Runs the command with the old release of the parser. -/
def run (arguments : List String) (input : String) : Except Error Outcome :=
  runBy Release.old.parser arguments input

end EpsilonNfa.CommandLine
