import ValueGrammar.Token.Lexer

/-!
# Why an input is not an expression

Model of `ParseError` and `ParseErrorReason`.

A parse error names the input, the offset of the token that was reached, and the cause.
-/

namespace ValueGrammar

/-- What the parser was ready to read. -/
inductive Expectation
  | term
  | operatorOrEnd
  | count
  | closeBracket
  | closeBrace
  deriving DecidableEq

/-- How messages name what was expected. -/
def Expectation.describe : Expectation → String
  | .term => "a term"
  | .operatorOrEnd => "an operator or end of input"
  | .count => "a repeat count"
  | .closeBracket => "']'"
  | .closeBrace => "'\x7d'"

/-- The causes of a parse error. -/
inductive ParseFault
  | lexical (error : LexError)
  | unexpected (expected : Expectation) (found : Token)
  | invalidCount (text : String)
  | inverted (least most : UInt32)
  deriving DecidableEq

/-- The message of a cause. -/
def ParseFault.message : ParseFault → String
  | .lexical e => e.message
  | .unexpected expected found =>
    "expected " ++ expected.describe ++ ", found " ++ found.describe
  | .invalidCount text => "repeat count must be a non-negative integer, found " ++ text
  | .inverted least most =>
    "range start " ++ toString least.toNat ++ " is greater than range end " ++ toString most.toNat

/-- Why and where an input is not an expression. -/
structure ParseError where
  input : String
  offset : Nat
  fault : ParseFault
  deriving DecidableEq

/-- The message of a parse error. -/
def ParseError.message (e : ParseError) : String :=
  "cannot parse '" ++ e.input ++ "' at offset " ++ toString e.offset ++ ": " ++ e.fault.message

end ValueGrammar
