import ValueGrammar.Command.Arguments
import ValueGrammar.Command.Session

/-!
# Running the program

The run that the program starts: its arguments are read by `Arguments.read` and the settings of its
log by `LogFilter.ofWord`.

Out of scope: settings of the log that are no level words, such as directives for a part of the
program. Here they show nothing.
-/

namespace ValueGrammar

/-- The filter of a level word, in capitals or not and with blanks around it or not. A blank setting
shows errors only. -/
def LogFilter.ofWord : LogReader := fun setting =>
  let word := (Text.trim setting).toLower
  if word = "" then upTo LogLevel.error.rank else upTo ((levelWords.idxOf? word).getD 0)

/-- Runs the program. -/
def Invocation.run (i : Invocation) : Outcome := i.runWith Arguments.read LogFilter.ofWord

end ValueGrammar
