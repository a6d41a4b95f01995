import ValueGrammar.Expr.Interchange
import ValueGrammar.Generator.Cursor

/-!
# The values of an expression

Model of `Compiler`, `CompileOptions`, `Compiled`, `compile_with` and `compile_json`.

An expression is compiled to a single text, if it is a leaf in any number of brackets, or to a
generator. Two limits keep the open multipliers finite.

Headlines:
* **`generator_ungroup`**: brackets do not change the values of an expression.
-/

namespace ValueGrammar

/-- Limits on repetition: the greatest count of `*`, `+` and `#`, and how many values of a repeated
expression are used, if that is limited. -/
structure Limits where
  repetitions : UInt64 := 4
  draws : Option UInt64 := none

namespace Limits

/-- The part of a repeated generator that each repetition draws from. -/
def bound (limits : Limits) (g : Generator) : Generator :=
  match limits.draws with
  | some count => .limited g count
  | none => g

/-- A generator under a multiplier. A comma list is one value and then pairs of a comma and a
value. -/
def multiply (limits : Limits) (g : Generator) : Multiplier → Generator
  | .optional => .repeated (limits.bound g) 0 1
  | .zeroOrMore => .repeated (limits.bound g) 0 limits.repetitions
  | .oneOrMore => .repeated (limits.bound g) 1 (max limits.repetitions 1)
  | .counted least most => .repeated (limits.bound g) least.toUInt64 most.toUInt64
  | .commaSeparated =>
    .cross [g, .repeated (limits.bound (.cross [.literal ",", g])) 0 limits.repetitions]

end Limits

/-- The generator of a combinator. -/
def Combinator.generator : Combinator → List Generator → Generator
  | .juxtaposition => .cross
  | .allOf => .permutation
  | .anyOf => .subset
  | .oneOf => .choice

namespace Expr

mutual

/-- The generator of an expression's values. -/
def generator (limits : Limits) : Expr → Generator
  | .leaf l => .literal l.text
  | .group body => body.generator limits
  | .multiplied body m => limits.multiply (body.generator limits) m
  | .combined c operands => c.generator (generators limits operands)

/-- The generators of several expressions. -/
def generators (limits : Limits) : List Expr → List Generator
  | [] => []
  | e :: es => e.generator limits :: generators limits es

end

@[simp] theorem generators_eq_map (limits : Limits) :
    ∀ es : List Expr, generators limits es = es.map (generator limits)
  | [] => rfl
  | e :: es => by rw [generators, generators_eq_map limits es, List.map_cons]

/-- Brackets do not change the values of an expression. -/
theorem generator_ungroup (limits : Limits) :
    ∀ e : Expr, e.ungroup.generator limits = e.generator limits
  | .group body => by rw [ungroup, generator_ungroup limits body, generator]
  | .leaf _ | .multiplied .. | .combined .. => by rw [ungroup]; simp

end Expr

/-- What an expression is compiled to. -/
inductive Compiled
  | text (text : String)
  | values (generator : Generator)

namespace Compiled

/-- A cursor before the first value; a text is its own only value. -/
def cursor : Compiled → Cursor
  | .text t => .ofGenerator (.literal t)
  | .values g => .ofGenerator g

end Compiled

/-- The compiled form of an expression under limits. -/
def Expr.compile (e : Expr) (limits : Limits) : Compiled :=
  match e.ungroup with
  | .leaf l => .text l.text
  | body => .values (body.generator limits)

/-- The compiled form of the expression that a JSON value encodes. -/
def Expr.compileOfJson (v : Json) (limits : Limits) : Except DecodeError Compiled :=
  return (← Expr.ofJson v).compile limits

end ValueGrammar
