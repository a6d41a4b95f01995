/-!
# Value expressions

Model of `Node` (`tag`, `is_leaf`, `children`) and `SeqOp` (`separator`, `collect`).

An expression describes a set of values. Its leaves are identifiers (numbers included), references
to named types and quoted texts. A multiplier says how often a term occurs, a combinator how
several operands stand together; brackets are kept as groups.

`Combinator.collect` joins operands: operands of the same combinator are spliced in and a single
operand stands for itself.

Headlines:
* **`Expr.inductionOn`**: what passes from the parts of an expression to the whole holds of all
  expressions.
* **`collect_singleton`**: a single operand with another combinator stands for itself.
* **`ofName?_name`**: a tag is found by its name.
-/

namespace ValueGrammar

/-- The atoms of an expression. -/
inductive Leaf
  | identifier (name : String)
  | typeRef (name : String)
  | quoted (text : String)
  deriving DecidableEq

/-- The text that a leaf stands for in a value. -/
def Leaf.text : Leaf → String
  | .identifier name => name
  | .typeRef name => "<" ++ name ++ ">"
  | .quoted text => text

/-- How often a term occurs: `?`, `*`, `+`, `#` and a range of counts. -/
inductive Multiplier
  | optional
  | zeroOrMore
  | oneOrMore
  | commaSeparated
  | counted (least most : UInt32)
  deriving DecidableEq

/-- How operands stand together: side by side, `&&`, `||` and `|`. -/
inductive Combinator
  | juxtaposition
  | allOf
  | anyOf
  | oneOf
  deriving DecidableEq

/-- A value expression. -/
inductive Expr
  | leaf (leaf : Leaf)
  | group (body : Expr)
  | multiplied (body : Expr) (multiplier : Multiplier)
  | combined (combinator : Combinator) (operands : List Expr)

namespace Expr

/-! ## Induction -/

mutual

/-- What passes from the parts of an expression to the whole holds of all expressions. -/
theorem inductionOn {P : Expr → Prop} (leaf : ∀ l, P (.leaf l))
    (group : ∀ body, P body → P (.group body))
    (multiplied : ∀ body m, P body → P (.multiplied body m))
    (combined : ∀ c operands, (∀ e ∈ operands, P e) → P (.combined c operands)) : ∀ e, P e
  | .leaf l => leaf l
  | .group body => group body (inductionOn leaf group multiplied combined body)
  | .multiplied body m => multiplied body m (inductionOn leaf group multiplied combined body)
  | .combined c operands =>
    combined c operands (inductionOnAll leaf group multiplied combined operands)

/-- The same for every member of a list. -/
theorem inductionOnAll {P : Expr → Prop} (leaf : ∀ l, P (.leaf l))
    (group : ∀ body, P body → P (.group body))
    (multiplied : ∀ body m, P body → P (.multiplied body m))
    (combined : ∀ c operands, (∀ e ∈ operands, P e) → P (.combined c operands)) :
    ∀ (es : List Expr), ∀ e ∈ es, P e
  | [], _, h => absurd h (List.not_mem_nil)
  | d :: ds, e, h =>
    (List.mem_cons.1 h).elim
      (fun he => he ▸ inductionOn leaf group multiplied combined d)
      (fun hds => inductionOnAll leaf group multiplied combined ds e hds)

end

/-! ## Equality -/

mutual

/-- Decides whether two expressions are equal. -/
def decEq : (a b : Expr) → Decidable (a = b)
  | .leaf a, .leaf b => decidable_of_iff (a = b) (by simp)
  | .group a, .group b =>
    match decEq a b with
    | isTrue h => isTrue (h ▸ rfl)
    | isFalse h => isFalse fun e => h (by injection e)
  | .multiplied a m, .multiplied b n =>
    match decEq a b with
    | isTrue h => decidable_of_iff (m = n) (by simp [h])
    | isFalse h => isFalse fun e => h (by injection e)
  | .combined c as, .combined d bs =>
    match decEqList as bs with
    | isTrue h => decidable_of_iff (c = d) (by simp [h])
    | isFalse h => isFalse fun e => h (by injection e)
  | .leaf _, .group _ | .leaf _, .multiplied .. | .leaf _, .combined ..
  | .group _, .leaf _ | .group _, .multiplied .. | .group _, .combined ..
  | .multiplied .., .leaf _ | .multiplied .., .group _ | .multiplied .., .combined ..
  | .combined .., .leaf _ | .combined .., .group _ | .combined .., .multiplied .. =>
    isFalse fun e => by injection e

/-- Decides whether two lists of expressions are equal. -/
def decEqList : (as bs : List Expr) → Decidable (as = bs)
  | [], [] => isTrue rfl
  | a :: as, b :: bs =>
    match decEq a b, decEqList as bs with
    | isTrue h, isTrue hs => isTrue (h ▸ hs ▸ rfl)
    | isFalse h, _ => isFalse fun e => h (List.cons.inj e).1
    | _, isFalse hs => isFalse fun e => hs (List.cons.inj e).2
  | [], _ :: _ | _ :: _, [] => isFalse (by simp)

end

instance : DecidableEq Expr := decEq

/-! ## Parts -/

/-- The operands or the body of an expression. -/
def children : Expr → List Expr
  | .leaf _ => []
  | .group body | .multiplied body _ => [body]
  | .combined _ operands => operands

/-- Whether an expression is a single leaf. -/
def isLeaf : Expr → Bool
  | .leaf _ => true
  | _ => false

/-- Whether an expression stands as one term: a leaf or a group. -/
def isTerm : Expr → Bool
  | .leaf _ | .group _ => true
  | _ => false

/-- The expression under any number of brackets. -/
def ungroup : Expr → Expr
  | .group body => body.ungroup
  | e => e

end Expr

/-! ## Joining operands -/

namespace Combinator

/-- The operands that an expression contributes under a combinator: its own ones if it has the same
combinator, else itself. -/
def splice (c : Combinator) : Expr → List Expr
  | .combined d operands => if d = c then operands else [.combined d operands]
  | e => [e]

/-- Joins operands: those of the same combinator are spliced in, and a single one stands alone. -/
def collect (c : Combinator) (operands : List Expr) : Expr :=
  match operands.flatMap c.splice with
  | [only] => only
  | operands => .combined c operands

/-- The operands of the same combinator are spliced in. -/
theorem splice_self (c : Combinator) (operands : List Expr) :
    c.splice (.combined c operands) = operands := if_pos rfl

/-- A single operand with another combinator stands for itself. -/
theorem collect_singleton {c : Combinator} {e : Expr} (h : c.splice e = [e]) :
    c.collect [e] = e := by
  simp [collect, h]

end Combinator

/-! ## Tags -/

/-- The kinds of expressions. -/
inductive Tag
  | identifier
  | typeRef
  | quoted
  | optional
  | zeroOrMore
  | oneOrMore
  | commaSeparated
  | counted
  | group
  | combined (combinator : Combinator)
  deriving DecidableEq

namespace Tag

/-- All kinds. -/
def all : List Tag :=
  [.identifier, .typeRef, .quoted, .optional, .zeroOrMore, .oneOrMore, .commaSeparated, .counted,
   .group, .combined .juxtaposition, .combined .allOf, .combined .anyOf, .combined .oneOf]

/-- The name of a kind. -/
def name : Tag → String
  | .identifier => "identifier"
  | .typeRef => "type"
  | .quoted => "string"
  | .optional => "?"
  | .zeroOrMore => "*"
  | .oneOrMore => "+"
  | .commaSeparated => "#"
  | .counted => "range"
  | .group => "group"
  | .combined .juxtaposition => "and"
  | .combined .allOf => "permute"
  | .combined .anyOf => "ior"
  | .combined .oneOf => "xor"

/-- The kind with a given name. -/
def ofName? (name : String) : Option Tag := all.find? fun t => t.name == name

/-- A tag is found by its name. -/
theorem ofName?_name (t : Tag) : ofName? t.name = some t := by
  rcases t with _ | _ | _ | _ | _ | _ | _ | _ | _ | ⟨_ | _ | _ | _⟩ <;> decide

/-- A tag that is found has the name that was looked for. -/
theorem name_of_ofName? {name : String} {t : Tag} (h : ofName? name = some t) : t.name = name := by
  simpa using List.find?_some h

end Tag

/-- The kind of a leaf. -/
def Leaf.tag : Leaf → Tag
  | .identifier _ => .identifier
  | .typeRef _ => .typeRef
  | .quoted _ => .quoted

/-- The kind of a multiplier. -/
def Multiplier.tag : Multiplier → Tag
  | .optional => .optional
  | .zeroOrMore => .zeroOrMore
  | .oneOrMore => .oneOrMore
  | .commaSeparated => .commaSeparated
  | .counted .. => .counted

/-- The kind of an expression. -/
def Expr.tag : Expr → Tag
  | .leaf l => l.tag
  | .group _ => .group
  | .multiplied _ m => m.tag
  | .combined c _ => .combined c

end ValueGrammar
