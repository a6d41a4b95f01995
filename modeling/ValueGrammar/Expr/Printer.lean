import ValueGrammar.Expr.Interchange

/-!
# Writing expressions

Model of `to_source` and `to_source_json` (`write_node`, `write_sequence`, `write_postfix`,
`write_string`).

Leaves are written as they are read, quoted texts in the first pair of quotes that suits them. The
body of a multiplier is put in brackets unless it is a leaf or a group. Operands are written one
after another between separators, without brackets of their own.

Headlines:
* **`sources_eq_map`**: several expressions are written one by one.
-/

namespace ValueGrammar

/-! ## Pieces -/

/-- The quotes for a text: straight double ones unless it holds one, then straight single ones
unless it holds one, else curly ones; curly ones also for the empty text. -/
def quotesFor (text : String) : String × String :=
  if text = "" then ("‘", "’")
  else if '\x22' ∉ text.toList then ("\"", "\"")
  else if '\x27' ∉ text.toList then ("'", "'")
  else ("‘", "’")

/-- A leaf as it is written in an expression. -/
def Leaf.source : Leaf → String
  | .identifier name => name
  | .typeRef name => "<" ++ name ++ ">"
  | .quoted text => (quotesFor text).1 ++ text ++ (quotesFor text).2

/-- A multiplier as it is written after a term. -/
def Multiplier.source : Multiplier → String
  | .optional => "?"
  | .zeroOrMore => "*"
  | .oneOrMore => "+"
  | .commaSeparated => "#"
  | .counted least most =>
    "\x7b" ++ toString least.toNat ++ "," ++ toString most.toNat ++ "\x7d"

/-- What stands between two operands. -/
def Combinator.separator : Combinator → String
  | .juxtaposition => " "
  | .allOf => " && "
  | .anyOf => " || "
  | .oneOf => " | "

/-- An expression's text in brackets. -/
def bracketed (source : String) : String := "[" ++ source ++ "]"

/-! ## Expressions -/

namespace Expr

mutual

/-- The text of an expression. -/
def source : Expr → String
  | .leaf l => l.source
  | .group body => bracketed body.source
  | .multiplied body m =>
    (if body.isTerm then body.source else bracketed body.source) ++ m.source
  | .combined c operands => c.separator.intercalate (sources operands)

/-- The texts of several expressions. -/
def sources : List Expr → List String
  | [] => []
  | e :: es => e.source :: sources es

end

@[simp] theorem sources_eq_map : ∀ es : List Expr, sources es = es.map source
  | [] => rfl
  | e :: es => by rw [sources, sources_eq_map es, List.map_cons]

/-- The text of the expression that a JSON value encodes. -/
def sourceOfJson (v : Json) : Except DecodeError String :=
  return (← ofJson v).source

end Expr

end ValueGrammar
