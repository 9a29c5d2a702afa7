import EpsilonNfa.Text.Digit

/-!
# Arguments of the command line

What an argument is when it is seen on its own: an option, with or without a value attached to it,
an option that does not exist, or a plain value.

A long option begins with two dashes, may be shortened to any beginning that no other option has,
and takes an attached value after an equals sign. The one short option has one dash and one letter,
and whatever follows the letter counts as attached. Values may begin with a dash if they are a dash
alone, look like a negative number, or hold a space; `--` makes values of all that follows it.
-/

namespace EpsilonNfa.CommandLine

/-- The options of the command line. -/
inductive Switch where
  | help
  /-- The word to look for. -/
  | word
  /-- Asks for a verdict at every prefix of a line. -/
  | prefixes
  /-- Asks for the listing of the automaton. -/
  | dump
deriving DecidableEq, Repr

namespace Switch

/-- The spellings of all options, in the order in which messages list them. -/
def spellings : List (String × Switch) :=
  [("-h", .help), ("--help", .help), ("--word", .word), ("--prefixes", .prefixes),
    ("--dump", .dump)]

/-- The name of an option in messages: its spellings with a slash between them. -/
def name (o : Switch) : String :=
  "/".intercalate ((spellings.filter (·.2 = o)).map (·.1))

def takesValue : Switch → Bool
  | .word => true
  | _ => false

def ofSpelling? (spelling : List Char) : Option Switch :=
  (spellings.find? fun s => s.1.toList = spelling).map (·.2)

end Switch

/-- An argument that was read as an option. -/
structure Occurrence where
  /-- The spelling that the argument stands for. -/
  spelling : String
  switch : Switch
  /-- The text attached to it. -/
  attached : Option (List Char) := none
  /-- Whether an equals sign stands before that text. -/
  separated : Bool := false
deriving DecidableEq, Repr

/-- Whether the option was spelt with two dashes. -/
def Occurrence.isLong (o : Occurrence) : Bool :=
  "--".toList.isPrefixOf o.spelling.toList

/-- The reading of one argument. -/
inductive Argument where
  | value
  /-- The mark after which all arguments are values. -/
  | endOfOptions
  | option (o : Occurrence)
  /-- It looks like an option, and there is none of that name. -/
  | unknown
deriving DecidableEq, Repr

/-- The two sides of the first equals sign, without it. -/
def splitAttached (arg : List Char) : List Char × Option (List Char) :=
  match arg.dropWhile (· ≠ '=') with
  | [] => (arg, none)
  | _ :: attached => (arg.takeWhile (· ≠ '='), some attached)

/-- Whether a text is a minus sign with digits, of which some may follow a point. The text may end
in a newline. -/
def looksNegative (arg : List Char) : Bool :=
  match arg with
  | '-' :: number =>
    let number := if number.getLast? = some '\n' then number.dropLast else number
    match number.dropWhile Text.isDecimalDigit with
    | [] => !number.isEmpty
    | '.' :: fraction => !fraction.isEmpty && fraction.all Text.isDecimalDigit
    | _ => false
  | _ => false

namespace Argument

/-- The options that an argument with a dash may stand for, when it is none by its full spelling. -/
def candidates (arg : List Char) : List Occurrence :=
  if "--".toList.isPrefixOf arg then
    match splitAttached arg with
    | (stem, attached) =>
      (Switch.spellings.filter fun s => stem.isPrefixOf s.1.toList).map fun s =>
        { spelling := s.1, switch := s.2, attached, separated := attached.isSome }
  else
    Switch.spellings.filterMap fun s =>
      if s.1.toList = arg.take 2 then
        some { spelling := s.1, switch := s.2, attached := some (arg.drop 2) }
      else if arg.isPrefixOf s.1.toList then some { spelling := s.1, switch := s.2 }
      else none

/-- An argument that spells an option in full, before an equals sign if there is one. -/
def ofFullSpelling? (arg : List Char) : Option Occurrence :=
  match Switch.ofSpelling? arg with
  | some o => some { spelling := String.ofList arg, switch := o }
  | none =>
    match splitAttached arg with
    | (stem, some attached) =>
      (Switch.ofSpelling? stem).map fun o =>
        { spelling := String.ofList stem, switch := o, attached := some attached
          separated := true }
    | (_, none) => none

/-- The reading of an argument before the end of options. Fails with the options that it could
stand for if there are several. -/
def ofText (arg : List Char) : Except (List Occurrence) Argument :=
  match arg with
  | [] => .ok .value
  | c :: rest =>
    if c ≠ '-' ∨ rest = [] then .ok .value
    else
      -- a full spelling wins, also where it is the beginning of another one
      match ofFullSpelling? arg with
      | some o => .ok (.option o)
      | none =>
        match candidates arg with
        | [o] => .ok (.option o)
        | [] => .ok (if looksNegative arg ∨ ' ' ∈ arg then .value else .unknown)
        | several => .error several

end Argument

end EpsilonNfa.CommandLine
