import ValueGrammar.Dictionary
import ValueGrammar.Expr.Basic
import ValueGrammar.Json.Basic

/-!
# Counting leaves

Model of `SymbolTable` (`collect`, `merge`, `is_empty`, `to_json`) and `bump`.

A symbol table counts how often each identifier, type reference and quoted text occurs in some
expressions. Tables can be merged.

Out of scope: counts beyond the greatest word.

Headlines:
* **`get?_add`**: adding to one count leaves the others.
-/

namespace ValueGrammar

/-! ## Counts -/

namespace Dictionary

/-- Adds to the count of a key, which is 0 if the key is new. -/
def add (d : Dictionary Nat) (key : String) (n : Nat) : Dictionary Nat :=
  d.insert key ((d.get? key).getD 0 + n)

/-- Adds the counts of one dictionary to those of another. -/
def merge (d e : Dictionary Nat) : Dictionary Nat :=
  e.entries.foldl (fun d entry => d.add entry.1 entry.2) d

/-- Adding to one count leaves the others. -/
theorem get?_add (d : Dictionary Nat) (key other : String) (n : Nat) :
    (d.add key n).get? other =
      if key = other then some ((d.get? key).getD 0 + n) else d.get? other :=
  get?_insert d key other _

end Dictionary

/-! ## Tables -/

/-- How often each leaf occurs. -/
structure SymbolTable where
  identifiers : Dictionary Nat
  types : Dictionary Nat
  texts : Dictionary Nat
  deriving DecidableEq

namespace SymbolTable

/-- No leaves. -/
def empty : SymbolTable := ⟨.empty, .empty, .empty⟩

instance : Inhabited SymbolTable := ⟨empty⟩

/-- Counts one leaf. -/
def addLeaf (t : SymbolTable) : Leaf → SymbolTable
  | .identifier name => { t with identifiers := t.identifiers.add name 1 }
  | .typeRef name => { t with types := t.types.add name 1 }
  | .quoted text => { t with texts := t.texts.add text 1 }

mutual

/-- Counts the leaves of an expression. -/
def collect (t : SymbolTable) : Expr → SymbolTable
  | .leaf l => t.addLeaf l
  | .group body => t.collect body
  | .multiplied body _ => t.collect body
  | .combined _ operands => t.collectAll operands

/-- Counts the leaves of several expressions. -/
def collectAll (t : SymbolTable) : List Expr → SymbolTable
  | [] => t
  | e :: es => (t.collect e).collectAll es

end

@[simp] theorem collectAll_eq_foldl :
    ∀ (es : List Expr) (t : SymbolTable), t.collectAll es = es.foldl collect t
  | [], _ => rfl
  | e :: es, t => by rw [collectAll, collectAll_eq_foldl es, List.foldl_cons]

/-- Adds the counts of one table to those of another. -/
def merge (t u : SymbolTable) : SymbolTable :=
  ⟨t.identifiers.merge u.identifiers, t.types.merge u.types, t.texts.merge u.texts⟩

/-- Whether no leaf was counted. -/
def isEmpty (t : SymbolTable) : Bool := t.identifiers.isEmpty && t.types.isEmpty && t.texts.isEmpty

/-- Counts as a JSON object. -/
def countsToJson (d : Dictionary Nat) : Json :=
  .object (d.entries.map fun entry => (entry.1, .natural entry.2))

/-- A table as JSON. -/
def toJson (t : SymbolTable) : Json :=
  .object [("identifiers", countsToJson t.identifiers), ("strings", countsToJson t.texts),
    ("types", countsToJson t.types)]

end SymbolTable

end ValueGrammar
