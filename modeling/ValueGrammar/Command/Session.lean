import ValueGrammar.Command.Action
import ValueGrammar.Command.Basic

/-!
# Sessions

Models `main`, `run_samples`, `read_stdin`, `read_expression` and `read_expressions`: a run as a
function of the arguments, the standard input and the log setting of the environment. It gives an
exit code, the text on the standard output and the text on the standard error.

The option parser and the reader of log settings are parameters of a run.

Out of scope: an output that cannot be written to, and a log setting of the environment that is no
Unicode text, which counts as none.
-/

namespace ValueGrammar

/-! ## Input -/

/-- What the standard input is: a terminal, which is not read from, some bytes, or something that
cannot be read, for a reason that the operating system gives. -/
inductive Stdin
  | terminal
  | content (bytes : ByteArray)
  | failing (reason : String)

/-- The text of the standard input, none at a terminal. -/
def readInput : Stdin → Action (Option String)
  | .terminal => return none
  | .failing reason => throw (.unreadableInput reason)
  | .content bytes =>
    match String.fromUTF8? bytes with
    | some text => return some text
    | none => throw (.unreadableInput "stream did not contain valid UTF-8")

/-- The expression that is given, or the trimmed standard input if that is there and not blank. -/
def readExpression (stdin : Stdin) : Option String → Action String
  | some expression => return expression
  | none => do
    match ((← readInput stdin).map Text.trim).filter (· ≠ "") with
    | some text => return text
    | none => throw .noInput

/-- The expressions that are given, or the lines of the standard input if that is there. -/
def readExpressions (stdin : Stdin) (expressions : List String) : Action (List String) := do
  if expressions.isEmpty then
    match ← readInput stdin with
    | some text => return Text.filledLines text
    | none => throw .noInput
  else
    return expressions

/-! ## Commands -/

/-- The lines that a command prints, under a filter for the log. -/
def Command.lines (filter : LogFilter) (stdin : Stdin) : Command → Action (List String)
  | .samples expression options types => do
    let expression ← readExpression stdin expression
    let types ← Action.typeTable types
    Action.samplesAt filter expression types options.limits options.listing
  | .parse expression pretty => do
    let expression ← readExpression stdin expression
    return [← Action.tree expression (if pretty then .pretty else .compact)]
  | .source expression => do
    let expression ← readExpression stdin expression
    return [← Action.source expression]
  | .symbols expressions => do
    let expressions ← readExpressions stdin expressions
    return [← Action.symbols expressions]
  | .expand expression types => do
    let expression ← readExpression stdin expression
    let types ← Action.typeTable types
    return [← Action.expansion expression types]

/-- Whether a command reads the standard input. -/
def Command.readsInput : Command → Bool
  | .samples expression .. | .parse expression _ | .source expression | .expand expression _ =>
    expression.isNone
  | .symbols expressions => expressions.isEmpty

/-! ## Runs -/

/-- What a run is started with. -/
structure Invocation where
  arguments : List String
  stdin : Stdin
  environmentLog : Option String

/-- What a run leaves behind. -/
structure Outcome where
  exitCode : UInt8
  stdout : String
  stderr : String
  deriving DecidableEq

/-- Lines of text, each with its newline. -/
def joinLines (lines : List String) : String := String.join (lines.map (· ++ "\n"))

/-- The text of some log lines. -/
def renderLog (lines : List LogLine) : String := String.join (lines.map LogLine.render)

/-- What a filter shows of a log: what it has to say about its setting, and the lines. -/
def LogFilter.shownLog (f : LogFilter) (log : List LogLine) : String :=
  f.complaint ++ renderLog (f.visible log)

/-- What a run leaves behind whose command gave a result, with what is shown of the log. A failure
prints nothing but its message, behind the log. -/
def Outcome.ofResult (shown : String) : Except Failure (List String) → Outcome
  | .ok lines => ⟨0, joinLines lines, shown⟩
  | .error failure => ⟨1, "", shown ++ failure.message ++ "\n"⟩

/-- What a command leaves behind, under a filter for the log. -/
def Command.outcome (command : Command) (filter : LogFilter) (stdin : Stdin) : Outcome :=
  let (result, log) := (command.lines filter stdin).outcome
  .ofResult (filter.shownLog (.started :: log)) result

/-- Runs the program with an option parser and a reader of log settings. A setting among the
arguments wins over that of the environment. -/
def Invocation.runWith (parser : OptionParser) (reader : LogReader) (i : Invocation) : Outcome :=
  match parser i.arguments with
  | .shown text => ⟨0, text, ""⟩
  | .refused message => ⟨2, "", message⟩
  | .run log command => command.outcome (reader.filter (log.or i.environmentLog)) i.stdin

end ValueGrammar
