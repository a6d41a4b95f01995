/-!
# Tokens

Model of `Token` with `starts_term` and `describe`.

A token carries the text that it stands for: a type reference without its angle brackets, a quoted
text without its quotes.
-/

namespace ValueGrammar

/-- One unit of a value expression. -/
inductive Token
  | identifier (name : String)
  | typeRef (name : String)
  | quoted (text : String)
  | number (text : String)
  | doubleBar
  | bar
  | doubleAmpersand
  | star
  | plus
  | question
  | hash
  | openBrace
  | closeBrace
  | openBracket
  | closeBracket
  | comma
  | endOfInput
  deriving DecidableEq

namespace Token

/-- Whether a term of an expression can begin with this token. -/
def startsTerm : Token → Bool
  | .identifier _ | .typeRef _ | .quoted _ | .number _ | .openBracket => true
  | _ => false

/-- The name of a token's kind. -/
def kind : Token → String
  | .identifier _ => "Identifier"
  | .typeRef _ => "Type"
  | .quoted _ => "String"
  | .number _ => "Number"
  | .doubleBar => "DoublePipe"
  | .bar => "Pipe"
  | .doubleAmpersand => "DoubleAmpersand"
  | .star => "Star"
  | .plus => "Plus"
  | .question => "Question"
  | .hash => "Hash"
  | .openBrace => "LBrace"
  | .closeBrace => "RBrace"
  | .openBracket => "LBracket"
  | .closeBracket => "RBracket"
  | .comma => "Comma"
  | .endOfInput => "Eof"

/-- How messages name a token. -/
def describe : Token → String
  | .identifier name => "identifier '" ++ name ++ "'"
  | .typeRef name => "type <" ++ name ++ ">"
  | .quoted text => "string \"" ++ text ++ "\""
  | .number text => "number " ++ text
  | .doubleBar => "'||'"
  | .bar => "'|'"
  | .doubleAmpersand => "'&&'"
  | .star => "'*'"
  | .plus => "'+'"
  | .question => "'?'"
  | .hash => "'#'"
  | .openBrace => "'\x7b'"
  | .closeBrace => "'\x7d'"
  | .openBracket => "'['"
  | .closeBracket => "']'"
  | .comma => "','"
  | .endOfInput => "end of input"

end Token

end ValueGrammar
