/-!
# JSON values

The JSON values that `node_to_json` builds and `json_to_node` reads (`Value`).

The members of an object are kept in a list. A value that was read has them in increasing order of
their keys, each key once; the values that this library builds are written in that order too.

A number is either a natural number in its plain spelling or any other number, kept as it is
spelled: `1`, `1.0` and `1e0` are different values here.

Out of scope: the value of a number in any other spelling than the plain one of a natural number.
-/

namespace ValueGrammar

/-- A JSON value. -/
inductive Json
  | null
  | bool (value : Bool)
  | natural (value : Nat)
  | decimal (spelling : String)
  | string (text : String)
  | array (items : List Json)
  | object (members : List (String × Json))
  deriving Inhabited

namespace Json

/-- The first value that an object holds under a key; other values hold none. -/
def get? (key : String) : Json → Option Json
  | .object members => (members.find? fun m => m.1 == key).map (·.2)
  | _ => none

/-- The natural number below a bound that a value is. -/
def naturalBelow? (bound : Nat) : Json → Option Nat
  | .natural n => if n < bound then some n else none
  | _ => none

end Json

end ValueGrammar
