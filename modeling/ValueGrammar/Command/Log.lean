import ValueGrammar.Text.Blank
import ValueGrammar.Text.ControlSequence
import ValueGrammar.Text.Quoted
import ValueGrammar.Token.Basic

/-!
# Log lines

Models the lines that the program logs (`debug!`, `trace!`, `warn!` and `info!` with their targets)
and which of them are shown (`init_logging`).

How a setting is read is a parameter: a `LogReader` takes it to a `LogFilter`, which may judge a
line by its level, its source and its text, and may complain about the setting. Without a setting
warnings and errors are shown.

Out of scope: colours, which are left out where the standard error is no terminal, and time stamps,
which are switched off.

Headlines:
* **`isPlain_of_mem_render`**: no line holds a control character but a blank one.
-/

namespace ValueGrammar

/-! ## Levels -/

/-- How much a log line matters, from the most to the least. -/
inductive LogLevel
  | error
  | warn
  | info
  | debug
  | trace
  deriving DecidableEq

namespace LogLevel

/-- The place of a level, from the one that matters most. -/
def rank : LogLevel → Nat
  | .error => 1
  | .warn => 2
  | .info => 3
  | .debug => 4
  | .trace => 5

/-- A level at the head of a line, five characters wide. -/
def label : LogLevel → String
  | .error => "ERROR"
  | .warn => "WARN "
  | .info => "INFO "
  | .debug => "DEBUG"
  | .trace => "TRACE"

end LogLevel

/-! ## Lines -/

/-- A line of the log: its level, the part of the program that speaks, and its text. -/
structure LogLine where
  level : LogLevel
  source : String
  text : String
  deriving DecidableEq

namespace LogLine

/-- A line as it is shown, with its newline. Further lines of its text are indented, and what would
control a terminal is left out, even the newline if it falls into an unfinished string. -/
def render (l : LogLine) : String :=
  Text.plain ("[" ++ l.level.label ++ " " ++ l.source ++ "] " ++
    "\n    ".intercalate ((Text.pieces l.text.toList).map String.ofList) ++ "\n")

/-- No line holds a control character but a blank one. -/
theorem isPlain_of_mem_render {l : LogLine} {c : Char} (h : c ∈ l.render.toList) :
    Text.isPlain c = true :=
  Text.isPlain_of_mem_plain h

/-- The first line of every log. -/
def started : LogLine := ⟨.debug, "valgen::cli::logging", "logging initialized"⟩

/-- A token was read. -/
def tokenRead (token : Token) (offset : Nat) : LogLine :=
  let text := match token with
    | .identifier text | .typeRef text | .quoted text | .number text =>
      token.kind ++ "(" ++ Text.quoted text ++ ")"
    | _ => token.kind
  ⟨.trace, "valgen::lexer", "token " ++ text ++ " at " ++ toString offset⟩

/-- An expression was read. -/
def parsed (expression : String) : LogLine :=
  ⟨.debug, "valgen::parser", "parsed value expression '" ++ expression ++ "'"⟩

/-- An expression of some kind was compiled. -/
def compiled (kind : String) : LogLine :=
  ⟨.debug, "valgen::compiler", "compiled '" ++ kind ++ "' node"⟩

/-- The references of an expression were expanded. -/
def expanded (expression : String) (passes : Nat) : LogLine :=
  ⟨.debug, "valgen::expand",
    "expanded '" ++ expression ++ "' in " ++ toString passes ++ " passes"⟩

/-- An expression refers to a type without a definition. -/
def unknownType (name expression : String) : LogLine :=
  ⟨.warn, "valgen::expand", "unknown type reference <" ++ name ++ "> in '" ++ expression ++ "'"⟩

/-- The values of an expression were counted. -/
def counted (expression : String) (size : Nat) : LogLine :=
  ⟨.info, "valgen::cli::samples",
    "'" ++ expression ++ "' describes " ++ toString size ++ " values"⟩

end LogLine

/-! ## Filters -/

/-- The words for what is shown, each one for one level more than the one before it. -/
def levelWords : List String := ["off", "error", "warn", "info", "debug", "trace"]

/-- What a setting of the log is read as. -/
structure LogFilter where
  /-- What is said about the setting itself, before the first line. -/
  complaint : String
  /-- Whether lines of a level from a source are wanted. -/
  wants : LogLevel → String → Bool
  /-- Whether a text is let through. -/
  admits : String → Bool

/-- Reads settings of the log. -/
abbrev LogReader := String → LogFilter

namespace LogFilter

/-- Shows the lines up to a rank, whatever their source and text. -/
def upTo (rank : Nat) : LogFilter := ⟨"", fun level _ => level.rank ≤ rank, fun _ => true⟩

/-- Shows every line. -/
def everything : LogFilter := upTo LogLevel.trace.rank

/-- Whether a line is shown. -/
def shows (f : LogFilter) (line : LogLine) : Bool :=
  f.wants line.level line.source && f.admits line.text

/-- The lines of a log that are shown. -/
def visible (f : LogFilter) (log : List LogLine) : List LogLine := log.filter f.shows

end LogFilter

/-- The filter of a setting: warnings and errors if there is none. -/
def LogReader.filter (reader : LogReader) (setting : Option String) : LogFilter :=
  (setting.map reader).getD (.upTo LogLevel.warn.rank)

end ValueGrammar
