import ValueGrammar.Command.Run

/-!
# The program

Hands the arguments, the standard input and the environment to a run and prints what it leaves
behind.
-/

namespace ValueGrammar

/-- What the standard input is. -/
def readStdin : IO Stdin := do
  let stdin ← IO.getStdin
  if ← stdin.isTty then return .terminal
  try
    return .content (← stdin.readBinToEnd)
  catch e =>
    return .failing (toString e)

/-- Runs the program; the standard input is read only for a command that needs it. -/
def start (arguments : List String) : IO Outcome := do
  let stdin ← match Arguments.read arguments with
    | .run _ command => if command.readsInput then readStdin else pure .terminal
    | _ => pure .terminal
  let environmentLog ← IO.getEnv "RUST_LOG"
  return { arguments, stdin, environmentLog : Invocation }.run

end ValueGrammar

/-- Runs the program with its arguments. -/
def main (arguments : List String) : IO UInt32 := do
  let outcome ← ValueGrammar.start arguments
  IO.eprint outcome.stderr
  IO.print outcome.stdout
  return outcome.exitCode.toUInt32
