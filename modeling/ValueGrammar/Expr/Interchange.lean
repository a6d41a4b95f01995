import ValueGrammar.Expr.Basic
import ValueGrammar.Json.Basic

/-!
# Expressions as JSON

Model of `node_to_json`, `json_to_node` and `NodeError`.

An expression is an object with one member. Its key names the kind of the expression; its value is
the text of a leaf, the body of a group or a multiplier, the operands of a combinator, or for a
range the two counts and the body.

Decoding reports the first thing that is wrong, outer kinds before inner ones.

Headlines:
* **`toJsonList_eq_map`**, **`ofJsonList_eq_mapM`**: lists are encoded and decoded one by one, and
  decoding stops at the first error.
-/

namespace ValueGrammar

/-! ## Errors -/

/-- What can be wrong with the value of a member. -/
inductive Malformation
  | notAnObject
  | noKeys
  | severalKeys
  | notAString
  | notAnArray
  | tooFewOperands
  | badCount (key : String)
  | inverted (least most : UInt32)
  | noBody
  deriving DecidableEq

/-- The message of a malformation. -/
def Malformation.message : Malformation → String
  | .notAnObject => "expected an object"
  | .noKeys => "object has no keys"
  | .severalKeys => "object has more than one key"
  | .notAString => "expected a string"
  | .notAnArray => "expected an array of nodes"
  | .tooFewOperands => "expected at least two operands"
  | .badCount key => "missing or invalid '" ++ key ++ "'"
  | .inverted least most =>
    "start " ++ toString least.toNat ++ " is greater than end " ++ toString most.toNat
  | .noBody => "missing 'expression'"

/-- Why a JSON value is not an expression. -/
inductive DecodeError
  | unknownTag (tag : String)
  | malformed (tag : String) (cause : Malformation)
  deriving DecidableEq

/-- The message of a decoding error. -/
def DecodeError.message : DecodeError → String
  | .unknownTag tag => "unknown node type '" ++ tag ++ "'"
  | .malformed tag cause => "malformed '" ++ tag ++ "' node: " ++ cause.message

namespace Expr

/-! ## Encoding -/

/-- The member that an object of one key holds. -/
def tagged (tag : Tag) (payload : Json) : Json := .object [(tag.name, payload)]

mutual

/-- An expression as JSON. -/
def toJson : Expr → Json
  | .leaf (.identifier name) => tagged .identifier (.string name)
  | .leaf (.typeRef name) => tagged .typeRef (.string name)
  | .leaf (.quoted text) => tagged .quoted (.string text)
  | .group body => tagged .group body.toJson
  | .multiplied body (.counted least most) =>
    tagged .counted <| .object
      [("end", .natural most.toNat), ("expression", body.toJson), ("start", .natural least.toNat)]
  | .multiplied body m => tagged m.tag body.toJson
  | .combined c operands => tagged (.combined c) (.array (toJsonList operands))

/-- Several expressions as JSON. -/
def toJsonList : List Expr → List Json
  | [] => []
  | e :: es => e.toJson :: toJsonList es

end

@[simp] theorem toJsonList_eq_map : ∀ es : List Expr, toJsonList es = es.map toJson
  | [] => rfl
  | e :: es => by rw [toJsonList, toJsonList_eq_map es, List.map_cons]

/-! ## Decoding -/

/-- The text of a leaf. -/
def leafText (tag : Tag) : Json → Except DecodeError String
  | .string text => .ok text
  | _ => .error (.malformed tag.name .notAString)

/-- A count of a range. -/
def boundOf (key : String) (payload : Json) : Except DecodeError UInt32 :=
  match (payload.get? key).bind (Json.naturalBelow? UInt32.size) with
  | some n => .ok (UInt32.ofNat n)
  | none => .error (.malformed Tag.counted.name (.badCount key))

/-- The counts of a range, in order. -/
def boundsOf (payload : Json) : Except DecodeError Multiplier := do
  let least ← boundOf "start" payload
  let most ← boundOf "end" payload
  if most < least then
    throw (.malformed Tag.counted.name (.inverted least most))
  return .counted least most

mutual

/-- The expression that a JSON value encodes. -/
def ofJson : Json → Except DecodeError Expr
  | .object [] => .error (.malformed "node" .noKeys)
  | .object (_ :: _ :: _) => .error (.malformed "node" .severalKeys)
  | .object [(name, payload)] =>
    match Tag.ofName? name with
    | none => .error (.unknownTag name)
    | some .identifier => return .leaf (.identifier (← leafText .identifier payload))
    | some .typeRef => return .leaf (.typeRef (← leafText .typeRef payload))
    | some .quoted => return .leaf (.quoted (← leafText .quoted payload))
    | some .optional => return .multiplied (← ofJson payload) .optional
    | some .zeroOrMore => return .multiplied (← ofJson payload) .zeroOrMore
    | some .oneOrMore => return .multiplied (← ofJson payload) .oneOrMore
    | some .commaSeparated => return .multiplied (← ofJson payload) .commaSeparated
    | some .counted => do
      let bounds ← boundsOf payload
      return .multiplied (← bodyOf payload) bounds
    | some .group => return .group (← ofJson payload)
    | some (.combined c) => return .combined c (← operandsOf c payload)
  | _ => .error (.malformed "node" .notAnObject)

/-- The body of a range. -/
def bodyOf : Json → Except DecodeError Expr
  | .object members => bodyAmong members
  | _ => .error (.malformed Tag.counted.name .noBody)

/-- The body of a range among the members of its object. -/
def bodyAmong : List (String × Json) → Except DecodeError Expr
  | [] => .error (.malformed Tag.counted.name .noBody)
  | (key, value) :: rest => if key = "expression" then ofJson value else bodyAmong rest

/-- The operands of a combinator. -/
def operandsOf (c : Combinator) : Json → Except DecodeError (List Expr)
  | .array items =>
    if items.length < 2 then .error (.malformed (Tag.combined c).name .tooFewOperands)
    else ofJsonList items
  | _ => .error (.malformed (Tag.combined c).name .notAnArray)

/-- The expressions that several JSON values encode. -/
def ofJsonList : List Json → Except DecodeError (List Expr)
  | [] => .ok []
  | v :: vs => return (← ofJson v) :: (← ofJsonList vs)

end

theorem ofJsonList_eq_mapM : ∀ vs : List Json, ofJsonList vs = vs.mapM ofJson
  | [] => by rw [ofJsonList, List.mapM_nil]; rfl
  | v :: vs => by rw [ofJsonList, ofJsonList_eq_mapM vs, List.mapM_cons]

end Expr

end ValueGrammar
