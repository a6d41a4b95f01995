import ValueGrammar.Command.Failure
import ValueGrammar.Command.Log
import ValueGrammar.Expr.Interchange
import ValueGrammar.Expr.Parser
import ValueGrammar.Expr.Printer
import ValueGrammar.Generator.Size
import ValueGrammar.Json.Printer
import ValueGrammar.Listing
import ValueGrammar.SymbolTable

/-!
# Actions on expressions

Models `execute_samples`, `execute_parse`, `execute_source`, `execute_symbols` and `execute_expand`:
what the commands do once their input is there. An action gives a result or fails, and logs what it
does on the way; the log is kept in both cases. Every line is logged, and a filter chooses from them
later; only the count of an expression's values is not even computed if its line is not wanted
(`log_enabled!`).
-/

namespace ValueGrammar

/-- Something that gives a result or fails, and logs in both cases. -/
abbrev Action := ExceptT Failure (StateM (List LogLine))

namespace Action

/-- The result of an action and its log. -/
def outcome {α : Type} (a : Action α) : Except Failure α × List LogLine := StateT.run a.run []

/-- The result of an action. -/
def result {α : Type} (a : Action α) : Except Failure α := a.outcome.1

/-- Logs some lines. -/
def log (lines : List LogLine) : Action Unit := modify (· ++ lines)

/-- Does something for the sake of lines of a level from a source only if they are wanted. -/
def ifWanted (filter : LogFilter) (level : LogLevel) (source : String) (a : Action Unit) :
    Action Unit :=
  if filter.wants level source then a else pure ()

/-- The value of a computation, its error taken as a failure. -/
def orFail {ε α : Type} (failure : ε → Failure) : Except ε α → Action α
  | .ok a => return a
  | .error e => throw (failure e)

/-! ## Steps -/

/-- Logs the tokens of an input as far as a parser reached. -/
def logTokens (input : String) (reached : Nat) : Action Unit :=
  log (((scan input).upTo reached).map fun t => .tokenRead t.1 t.2)

/-- Reads an expression. -/
def parse (input : String) : Action Expr := do
  let parser ← orFail .parse (Parser.ofInput input)
  let (result, parser) := parser.perform Parser.whole
  logTokens input parser.lexer.offset
  let e ← orFail .parse result
  log [.parsed input]
  return e

/-- Compiles an expression. -/
def compile (e : Expr) (limits : Limits) : Action Compiled := do
  log [.compiled e.tag.name]
  return e.compile limits

/-- Expands the type references of an expression. -/
def expand (expression : String) (types : TypeTable) : Action Expansion := do
  let expansion ← orFail .expansion (types.expand expression)
  log [.expanded expression expansion.passes]
  log (expansion.unresolved.map fun name => .unknownType name expression)
  return expansion

/-- Counts the values of what an expression was compiled to. -/
def logCount (expression : String) : Compiled → Action Unit
  | .values g => log ((g.size.map (LogLine.counted expression)).toList)
  | .text _ => pure ()

/-- Reads type definitions. -/
def typeTable (definitions : List String) : Action TypeTable :=
  orFail .invalidDefinition (TypeTable.parse definitions)

/-! ## Results -/

/-- The expression of a tree as JSON. -/
def tree (expression : String) (layout : Json.Layout) : Action String := do
  return (← parse expression).toJson.render layout

/-- The canonical text of an expression. -/
def source (expression : String) : Action String := do
  return (← parse expression).source

/-- The counts of the leaves of some expressions, as JSON. -/
def symbols (expressions : List String) : Action String := do
  let trees ← expressions.mapM parse
  return (SymbolTable.empty.collectAll trees).toJson.render .pretty

/-- An expression with its type references expanded. -/
def expansion (expression : String) (types : TypeTable) : Action String := do
  return (← expand expression types).text

/-- Values of an expression, under a filter for the log. Without any definition its type references
are left alone. The values are counted only if their number is wanted in the log. -/
def samplesAt (filter : LogFilter) (expression : String) (types : TypeTable) (limits : Limits)
    (listing : Listing) : Action (List String) := do
  let text ← if types.isEmpty then pure expression else expansion expression types
  let compiled ← compile (← parse text) limits
  ifWanted filter .info "valgen::cli::samples" (logCount expression compiled)
  return listing.texts compiled

/-- The same with a full log. -/
def samples : String → TypeTable → Limits → Listing → Action (List String) := samplesAt .everything

end Action

end ValueGrammar
