import EpsilonNfa.CommandLine.Argument
import EpsilonNfa.Text.Quoted

/-!
# Settings

What the arguments ask for, or why they are refused. The command takes any `Parser` for that; this
is the one that it is given, in two releases. All arguments are read one by one before any option is
acted on, so an ambiguous argument is refused first; then the options take effect in their order,
and a request for help ends the matter. A missing word and arguments that nothing takes are found
last.
-/

namespace EpsilonNfa.CommandLine

/-- What the command line asks for. -/
structure Settings where
  /-- The word to look for. -/
  word : String
  /-- Whether every prefix of a line gets a verdict. -/
  prefixes : Bool := false
  dump : Bool := false
deriving DecidableEq, Repr

/-- How arguments are rejected. -/
structure Rejection where
  /-- What is printed before the error. -/
  stdout : String := ""
  stderr : String := ""
  /-- The text of the error. -/
  message : String
deriving DecidableEq, Repr

/-- A parser gets the name of the program and the arguments behind it. It prints only when it
rejects these. -/
abbrev Parser := String → List String → Except Rejection Settings

/-- Why arguments are refused. -/
inductive Refusal where
  | helpRequested
  /-- An argument is the beginning of several options. -/
  | ambiguous (argument : String) (spellings : List String)
  | missingValue (option : Switch)
  /-- The option takes no value, and this one was attached to it. -/
  | ignoredValue (option : Switch) (text : String)
  | missingWord
  | unrecognized (arguments : List String)
deriving DecidableEq, Repr

/-! ## Releases -/

/-- The releases of the parser. They differ in what they make of text attached to an option. -/
inductive Release where
  /-- The mark that ends the options is no value where it is attached, and only the letter of a short
  option may stand behind it. -/
  | old
  /-- The mark is a value where it is attached, and a short option is acted on before a letter behind
  it that is no option. -/
  | new
deriving DecidableEq, Repr

namespace Release

/-- The value of a text attached to an option that takes one. To the old release the mark that ends
the options is no value there either, and leaves nothing. -/
def attachedValue : Release → List Char → String
  | .old, text => if text = "--".toList then "" else String.ofList text
  | .new, text => String.ofList text

/-- What is left over of the text behind a short option that takes no value, to the new release. The
option may be repeated. A letter that is no option leaves nothing: the option before it is acted on
first, and there is none but the request for help. -/
def leftBehindShort : List Char → Option (List Char)
  | [] => none
  | '=' :: text => some text
  | 'h' :: text => leftBehindShort text
  | c :: text => if c = '-' then some (c :: text) else none

/-- What is left over of a text attached to an option that takes no value, if that is an error. -/
def leftOver (release : Release) (o : Occurrence) (text : List Char) : Option (List Char) :=
  match release with
  | .old =>
    let rest := if o.isLong then text else text.dropWhile (· = 'h')
    if rest = [] ∧ text ≠ [] then none else some rest
  | .new => if o.isLong ∨ o.separated then some text else leftBehindShort text

end Release

/-! ## Parsing -/

/-- What has been gathered from the arguments. -/
structure Gathered where
  /-- The last word. -/
  word : Option String := none
  prefixes : Bool := false
  dump : Bool := false
  extras : List String := []
deriving DecidableEq, Repr

namespace Gathered

/-- Notes an option without a value. -/
def note (s : Gathered) : Switch → Except Refusal Gathered
  | .help => .error .helpRequested
  | .prefixes => .ok { s with prefixes := true }
  | .dump => .ok { s with dump := true }
  | .word => .error (.missingValue .word)

/-- Notes an option with a text attached to it. -/
def noteAttached (release : Release) (s : Gathered) (o : Occurrence) (text : List Char) :
    Except Refusal Gathered :=
  if o.switch.takesValue then .ok { s with word := some (release.attachedValue text) }
  else
    match release.leftOver o text with
    | none => s.note o.switch
    | some rest => .error (.ignoredValue o.switch (String.ofList rest))

/-- Notes the arguments from left to right. -/
def noteAll (release : Release) (s : Gathered) : List (String × Argument) → Except Refusal Gathered
  | [] => .ok s
  | (_, .option o) :: rest =>
    match o.attached with
    | some text => do noteAll release (← s.noteAttached release o text) rest
    | none =>
      if o.switch.takesValue then
        match rest with
        | (value, .value) :: rest => noteAll release { s with word := some value } rest
        | _ => .error (.missingValue o.switch)
      else do noteAll release (← s.note o.switch) rest
  | (arg, _) :: rest => noteAll release { s with extras := s.extras ++ [arg] } rest

end Gathered

/-- Reads the arguments one by one. -/
def readAll : List String → Except Refusal (List (String × Argument))
  | [] => .ok []
  | arg :: rest =>
    if arg = "--" then .ok ((arg, .endOfOptions) :: rest.map (·, .value))
    else
      match Argument.ofText arg.toList with
      | .error several => .error (.ambiguous arg (several.map (·.spelling)))
      | .ok reading => do return (arg, reading) :: (← readAll rest)

/-- The settings that the arguments ask for. -/
def parse (release : Release) (arguments : List String) : Except Refusal Settings := do
  let gathered ← Gathered.noteAll release {} (← readAll arguments)
  match gathered.word with
  | none => throw .missingWord
  | some word =>
    -- a missing word hides arguments that nothing takes
    if gathered.extras ≠ [] then throw (.unrecognized gathered.extras)
    return { word, prefixes := gathered.prefixes, dump := gathered.dump }

end EpsilonNfa.CommandLine
