import ValueGrammar.Expr.Basic
import ValueGrammar.Expr.ParseError

/-!
# Reading expressions

Model of `Parser` (`new`, `parse`, `parse_expression` and the levels below it, down to
`parse_term`), `parse` and `parse_or_unknown`.

From loosest to tightest, the combinators are `||`, `|`, `&&` and juxtaposition; a term takes at
most one multiplier. Each level reads its operands from the level below and joins them with
`Combinator.collect`.

A parser looks one token ahead. It keeps its place when it fails, so that it can be asked again.
While a term is read, the token that begins it counts as consumed: until the next token is there,
the end of the input stands in its place.

The recursion through brackets is bounded by the number of tokens that are left.

Out of scope: the depth of the call stack.

Headlines:
* **`advance_of_token`**, **`advance_of_finished`**, **`advance_of_fault`**: one equation for each
  thing that can come next.
-/

namespace ValueGrammar

/-- A lexer and the token that it handed out last. -/
structure Parser where
  lexer : Lexer
  current : Token

/-- Steps of a parser, which stays where a failing step left it. -/
abbrev ParserM := EStateM ParseError Parser

namespace Parser

/-! ## Steps -/

/-- Fails at the offset that the lexer reached. -/
def fail {α : Type} (fault : ParseFault) : ParserM α := do
  let p ← get
  throw ⟨p.lexer.input, p.lexer.offset, fault⟩

/-- Fails because of the current token. -/
def unexpected {α : Type} (expected : Expectation) : ParserM α := do
  fail (.unexpected expected (← get).current)

/-- Moves to the next token; at a lexical fault the current token stays. -/
def advance : ParserM Unit := do
  let p ← get
  match p.lexer.next with
  | (.ok token, lexer) => set (Parser.mk lexer token)
  | (.error e, lexer) =>
    set { p with lexer }
    throw ⟨lexer.input, e.offset, .lexical e⟩

theorem run_get_bind {α : Type} {p : Parser} {f : Parser → ParserM α} :
    (get >>= f).run p = (f p).run p := rfl

theorem advance_of_token {p : Parser} {t : Token} {offset : Nat} {rest : Scan}
    (h : p.lexer.upcoming = .token t offset rest) :
    advance.run p = .ok () ⟨⟨p.lexer.input, offset, rest⟩, t⟩ := by
  rw [advance, run_get_bind, Lexer.next, h]
  rfl

theorem advance_of_finished {p : Parser} {length : Nat}
    (h : p.lexer.upcoming = .finished length) :
    advance.run p = .ok () ⟨⟨p.lexer.input, length, .finished length⟩, .endOfInput⟩ := by
  rw [advance, run_get_bind, Lexer.next, h]
  rfl

theorem advance_of_fault {p : Parser} {e : LexError} (h : p.lexer.upcoming = .fault e) :
    advance.run p = .error ⟨p.lexer.input, e.offset, .lexical e⟩
      ⟨⟨p.lexer.input, e.offset, .fault e⟩, p.current⟩ := by
  rw [advance, run_get_bind, Lexer.next, h]
  rfl

/-- Moves past a token that has to be there. -/
def expect (token : Token) (expected : Expectation) : ParserM Unit := do
  if (← get).current = token then advance else unexpected expected

/-- Moves past a token if it is there, and tells whether it was. -/
def skip (token : Token) : ParserM Bool := do
  if (← get).current = token then
    advance
    return true
  else
    return false

/-- Moves past the token that begins a term. -/
def consume : ParserM Unit := do
  modify fun p => { p with current := .endOfInput }
  advance

/-! ## Multipliers -/

/-- The count that a number denotes: a whole number of 32 bits. -/
def count? (text : String) : Option UInt32 :=
  (Text.natural? text.toList).bind fun n =>
    if h : n < UInt32.size then some (UInt32.ofNatLT n h) else none

/-- A repeat count. -/
def count : ParserM UInt32 := do
  match (← get).current with
  | .number text =>
    match count? text with
    | some n =>
      advance
      return n
    | none => fail (.invalidCount text)
  | _ => unexpected .count

/-- A count or two counts in order, up to the closing brace. -/
def range : ParserM Multiplier := do
  let least ← count
  let most ← if ← skip .comma then count else pure least
  if most < least then
    fail (.inverted least most)
  expect .closeBrace .closeBrace
  return .counted least most

/-- A multiplier, if there is one. -/
def multiplier? : ParserM (Option Multiplier) := do
  match (← get).current with
  | .star =>
    advance
    return some .zeroOrMore
  | .plus =>
    advance
    return some .oneOrMore
  | .question =>
    advance
    return some .optional
  | .hash =>
    advance
    return some .commaSeparated
  | .openBrace =>
    advance
    return some (← range)
  | _ => return none

/-! ## Terms and levels -/

/-- A leaf, or an expression in brackets. -/
def term (inner : ParserM Expr) : ParserM Expr := do
  match (← get).current with
  | .identifier name | .number name =>
    consume
    return .leaf (.identifier name)
  | .typeRef name =>
    consume
    return .leaf (.typeRef name)
  | .quoted text =>
    consume
    return .leaf (.quoted text)
  | .openBracket =>
    consume
    let body ← inner
    expect .closeBracket .closeBracket
    return .group body
  | _ => unexpected .term

/-- A term and its multiplier. -/
def factor (inner : ParserM Expr) : ParserM Expr := do
  let body ← term inner
  match ← multiplier? with
  | some m => return .multiplied body m
  | none => return body

/-- Whether another operand follows; its combinator is skipped. -/
def continues : Combinator → ParserM Bool
  | .juxtaposition => return (← get).current.startsTerm
  | .allOf => skip .doubleAmpersand
  | .anyOf => skip .doubleBar
  | .oneOf => skip .bar

/-- At least one operand, and at most `bound` more. -/
def operands (c : Combinator) (operand : ParserM Expr) : Nat → ParserM (List Expr)
  | 0 => return [← operand]
  | bound + 1 => do
    let first ← operand
    if ← continues c then
      return first :: (← operands c operand bound)
    else
      return [first]

/-- The operands of one combinator, joined. -/
def level (c : Combinator) (bound : Nat) (operand : ParserM Expr) : ParserM Expr :=
  return c.collect (← operands c operand bound)

/-- An expression with fewer than `bound` brackets around any of its parts. -/
def expressionWithin : Nat → ParserM Expr
  | 0 => unexpected .term
  | bound + 1 =>
    level .anyOf bound <| level .oneOf bound <| level .allOf bound <|
      level .juxtaposition bound <| factor (expressionWithin bound)

/-- The number of tokens that are left, the current one included. -/
def remaining (p : Parser) : Nat := p.lexer.upcoming.length + 1

/-- An expression, as far as it goes. -/
def expression : ParserM Expr := do
  expressionWithin ((← get).remaining + 1)

/-- An expression up to the end of the input. -/
def whole : ParserM Expr := do
  let e ← expression
  if (← get).current = .endOfInput then return e else unexpected .operatorOrEnd

/-! ## Parsers -/

/-- A parser at the next token of a lexer. -/
def ofLexer (lexer : Lexer) : Except ParseError Parser :=
  match lexer.next with
  | (.ok token, lexer) => .ok ⟨lexer, token⟩
  | (.error e, lexer) => .error ⟨lexer.input, e.offset, .lexical e⟩

/-- A parser at the first token of an input. -/
def ofInput (input : String) : Except ParseError Parser := ofLexer (Lexer.ofInput input)

/-- The answer of some steps, and the parser after them. -/
def perform {α : Type} (p : Parser) (steps : ParserM α) : Except ParseError α × Parser :=
  match steps.run p with
  | .ok a p => (.ok a, p)
  | .error e p => (.error e, p)

end Parser

namespace Expr

/-- The expression that an input denotes. -/
def parse (input : String) : Except ParseError Expr := do
  let p ← Parser.ofInput input
  (p.perform Parser.whole).1

/-- The type that stands for expressions that cannot be read. -/
def unknown : Expr := .leaf (.typeRef "unknown")

/-- The expression that an input denotes, or a reference to an unknown type. -/
def parseOrUnknown (input : String) : Expr :=
  match parse input with
  | .ok e => e
  | .error _ => unknown

end Expr

end ValueGrammar
