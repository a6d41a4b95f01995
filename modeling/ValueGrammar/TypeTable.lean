import ValueGrammar.Dictionary
import ValueGrammar.Token.Pattern

/-!
# Type definitions and their expansion

Model of `TypeTable` (`define`, `get`, `expand`), `Expansion` and `ExpandError`, and of
`parse_type_definitions`.

A type table defines names by expressions. Expanding a text replaces each reference `<name>` to a
defined name by its definition in brackets, again and again, until a pass changes nothing. Names
without a definition stay as they are and are reported.

References are found in the text, not in its tokens, so those in quotes and comments count too.

Out of scope: the size of a text that is being expanded.
-/

namespace ValueGrammar

/-! ## References in a text -/

/-- A part of a text: a reference to a type, or a character outside of references. -/
inductive Fragment
  | reference (name : String)
  | other (c : Char)
  deriving DecidableEq

/-- A text cut into references and other characters, from left to right. -/
def fragmentsOf (cs : List Char) : List Fragment :=
  match cs with
  | [] => []
  | c :: rest =>
    match _h : Pattern.typeRef.split? (c :: rest) with
    | none => .other c :: fragmentsOf rest
    | some (lexeme, after) =>
      .reference (Pattern.inside lexeme) :: fragmentsOf after
termination_by cs.length
decreasing_by
  · exact Nat.lt_succ_self rest.length
  · exact Pattern.length_lt_of_split? _h

/-! ## Tables -/

/-- Definitions of types by name, and how many passes an expansion may take. -/
structure TypeTable where
  definitions : Dictionary String := .empty
  maxPasses : Nat := 32

/-- A text without references to defined names, and the names in it that have no definition, in
increasing order. -/
structure Expansion where
  text : String
  unresolved : List String
  passes : Nat
  deriving DecidableEq

/-- An expansion that did not come to an end. -/
structure ExpansionError where
  expression : String
  passes : Nat
  deriving DecidableEq

/-- The message of a failed expansion. -/
def ExpansionError.message (e : ExpansionError) : String :=
  "type expansion of '" ++ e.expression ++ "' did not settle after " ++ toString e.passes ++
    " passes"

namespace TypeTable

/-- A table of pairs of a name and its definition; of equal names the last one counts. -/
def ofList (pairs : List (String × String)) : TypeTable := { definitions := .ofList pairs }

/-- Defines a name. -/
def define (t : TypeTable) (name expression : String) : TypeTable :=
  { t with definitions := t.definitions.insert name expression }

/-- The definition of a name. -/
def get? (t : TypeTable) (name : String) : Option String := t.definitions.get? name

/-- The number of definitions. -/
def size (t : TypeTable) : Nat := t.definitions.size

/-- Whether nothing is defined. -/
def isEmpty (t : TypeTable) : Bool := t.definitions.isEmpty

/-! ## Expansion -/

/-- What a fragment is replaced by. -/
def replacement (t : TypeTable) : Fragment → List Char
  | .other c => [c]
  | .reference name =>
    match t.get? name with
    | some definition => '[' :: definition.toList ++ [']']
    | none => '<' :: name.toList ++ ['>']

/-- A text with every reference to a defined name replaced once. -/
def substitute (t : TypeTable) (text : String) : String :=
  String.ofList ((fragmentsOf text.toList).flatMap t.replacement)

/-- The names without a definition that a text refers to. -/
def undefinedIn (t : TypeTable) (text : String) : List String :=
  (fragmentsOf text.toList).filterMap fun
    | .reference name => if (t.get? name).isNone then some name else none
    | .other _ => none

/-- Repeats substitution until it changes nothing, for a number of passes that is left; `passes`
have been made, and `undefined` holds the names without a definition seen in them. -/
def settle (t : TypeTable) : Nat → Nat → Dictionary Unit → String → Option Expansion
  | 0, _, _, _ => none
  | left + 1, passes, undefined, text =>
    let undefined := (t.undefinedIn text).foldl (fun d name => d.insert name ()) undefined
    let next := t.substitute text
    if next = text then some ⟨text, undefined.keys, passes⟩
    else t.settle left (passes + 1) undefined next

/-- Expands every reference to a defined name in a text. -/
def expand (t : TypeTable) (expression : String) : Except ExpansionError Expansion :=
  match t.settle t.maxPasses 0 .empty expression with
  | some expansion => .ok expansion
  | none => .error ⟨expression, t.maxPasses⟩

end TypeTable

/-! ## Definitions as text -/

/-- The name and the expression of a definition `NAME=EXPRESSION`. The name may stand in angle
brackets; it must not be blank before they are dropped. -/
def parseDefinition? (definition : String) : Option (String × String) :=
  match definition.toList.dropWhile (· ≠ '=') with
  | [] => none
  | _ :: expression =>
    let name := Text.strip Text.isBlank (definition.toList.takeWhile (· ≠ '='))
    if name = [] then none
    else some (String.ofList (Text.strip (fun c => c = '<' || c = '>') name),
      String.ofList (Text.strip Text.isBlank expression))

/-- The table of a list of definitions, or the first of them that is not one. -/
def TypeTable.parse (definitions : List String) : Except String TypeTable :=
  TypeTable.ofList <$> definitions.mapM fun d =>
    match parseDefinition? d with
    | some pair => .ok pair
    | none => .error d

end ValueGrammar
