import ValueGrammar.Expr.ParseError
import ValueGrammar.TypeTable

/-!
# Why a command fails

Models `CliError`. Each cause carries what its message tells.

Out of scope: a tree or a table that cannot be written as JSON. Their keys are strings and their
numbers are integers, so there is none.
-/

namespace ValueGrammar

/-- The causes for which a command gives no result. -/
inductive Failure
  | parse (error : ParseError)
  | expansion (error : ExpansionError)
  | unreadableInput (reason : String)
  | noInput
  | invalidDefinition (definition : String)
  deriving DecidableEq

/-- The message of a failure. -/
def Failure.message : Failure → String
  | .parse e => "Parse error: " ++ e.message
  | .expansion e => "Expansion error: " ++ e.message
  | .unreadableInput reason => "IO error: " ++ reason
  | .noInput => "No expression provided. Pass one as an argument or pipe it to stdin."
  | .invalidDefinition definition =>
    "Invalid type definition '" ++ definition ++ "', expected NAME=EXPRESSION"

end ValueGrammar
