import EpsilonNfa.CommandLine.Run

/-!
# The program

Prints what the command leaves behind. The drawing of the automaton is not shown.
-/

/-- Runs the command on the arguments and the standard input. -/
def main (arguments : List String) : IO UInt32 := do
  let input ← (← IO.getStdin).readToEnd
  match EpsilonNfa.CommandLine.run ("epsilon-nfa" :: arguments) input with
  | .ok outcome =>
    IO.print outcome.stdout
    IO.eprint outcome.stderr
    return outcome.code.toUInt32
  | .error e =>
    IO.eprintln e.message
    return 1
