import EpsilonNfa.CommandLine.Settings

/-!
# Usage and help

The usage line names the program and its options. If it does not fit, its parts are set in lines
that begin below the first option, or below the name of the program if that is long. A page never
has two blank lines in a row, nor one at its ends.
-/

namespace EpsilonNfa.CommandLine

def usageWidth : Nat := 78

def usageLead : String := "usage: "

/-- The options as the usage shows them, in the parts between which a line may end. -/
def usageParts : List String :=
  ["[-h]", "--word", "WORD", "[--prefixes]", "[--dump]"]

/-- Sets parts in lines: a part that would end beyond the usage width begins a new line, which has
`indent` columns before it. The line that is being set has `used` columns so far, counted without
the blank before the next part. -/
def fillLines (indent used : Nat) (line : List String) : List String → List (List String)
  | [] => if line = [] then [] else [line]
  | part :: parts =>
    if usageWidth < used + 1 + part.length ∧ line ≠ [] then
      line :: fillLines indent (indent + part.length) [part] parts
    else fillLines indent (used + 1 + part.length) (line ++ [part]) parts

def indentLine (indent : Nat) (line : List String) : String :=
  String.ofList (List.replicate indent ' ') ++ " ".intercalate line

/-- The lines of the usage after its first words, set for a program whose name is `program`. -/
def usageText (program : String) : String :=
  let oneLine := " ".intercalate ((program :: usageParts).filter (· ≠ ""))
  let lead := usageLead.length
  if lead + oneLine.length ≤ usageWidth then oneLine
  else if 4 * (lead + program.length) ≤ 3 * usageWidth then
    let indent := lead + program.length + 1
    match fillLines indent (lead - 1) [] (program :: usageParts) with
    | [] => ""
    | first :: lines => "\n".intercalate (" ".intercalate first :: lines.map (indentLine indent))
  else
    "\n".intercalate
      (program :: (fillLines lead (lead - 1) [] usageParts).map (indentLine lead))

/-- Leaves out every line break after the second of a run, of which `run` were met before. -/
def squeezeBreaks (run : Nat) : List Char → List Char
  | [] => []
  | c :: text =>
    if c = '\n' then
      if 2 ≤ run then squeezeBreaks run text else c :: squeezeBreaks (run + 1) text
    else c :: squeezeBreaks 0 text

/-- A page without runs of blank lines and without line breaks at its ends, but for the last. -/
def page (text : String) : String :=
  let squeezed := (squeezeBreaks 0 text.toList).dropWhile (· = '\n')
  String.ofList ((squeezed.reverse.dropWhile (· = '\n')).reverse ++ ['\n'])

def usagePage (program : String) : String :=
  page (usageLead ++ usageText program ++ "\n\n")

def helpPage (program : String) : String :=
  page (usageLead ++ usageText program ++ "\n\n" ++
    "\noptions:\n" ++
    "  -h, --help   show this help message and exit\n" ++
    "  --word WORD\n" ++
    "  --prefixes\n" ++
    "  --dump\n\n")

/-- An error that is shown below the usage. -/
def Rejection.withUsage (program message : String) : Rejection :=
  { stderr := usagePage program, message := s!"{program}: error: {message}\n" }

/-- What is printed for a refusal. A request for help is answered, and refused nevertheless. -/
def Refusal.rejection (program : String) : Refusal → Rejection
  | .helpRequested => { stdout := helpPage program, message := "None" }
  | .ambiguous argument spellings =>
    let candidates := ", ".intercalate spellings
    .withUsage program s!"ambiguous option: {argument} could match {candidates}"
  | .missingValue option => { message := s!"argument {option.name}: expected one argument" }
  | .ignoredValue option text =>
    { message := s!"argument {option.name}: ignored explicit argument {Text.quote text}" }
  | .missingWord => .withUsage program "the following arguments are required: --word"
  | .unrecognized arguments =>
    let leftOver := " ".intercalate arguments
    .withUsage program s!"unrecognized arguments: {leftOver}"

/-- The parser of a release. -/
def Release.parser (release : Release) : Parser := fun program arguments =>
  (parse release arguments).mapError (·.rejection program)

end EpsilonNfa.CommandLine
