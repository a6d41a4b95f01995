import ValueGrammar.Expr.Parser

/-!
# The grammar of value expressions

`Derives` says which tokens spell which expression, category by category: `||` binds loosest, then
`|`, then `&&`, then operands side by side, then a term with at most one multiplier. Two or more
operands make one flat node; a single operand is no node of its own.

Headlines:
* **`looseness_le`**: an expression of a category is no looser than the category, so operands never
  have the combinator that joins them.
* **`derives_operandCategory`**: what is derived more tightly than a combinator is an operand of it.
* **`exists_startsTerm`**: what is derived begins with a token that can begin a term.
* **`endsBefore_level`**: an expression is complete when its last operand is and no other follows.
-/

namespace ValueGrammar

/-! ## Categories -/

/-- What some tokens can stand for, from the tightest to the loosest. -/
inductive Category
  | term
  | factor
  | level (combinator : Combinator)
  deriving DecidableEq

/-- The category of the operands of a combinator. -/
def Combinator.operandCategory : Combinator → Category
  | .juxtaposition => .factor
  | .allOf => .level .juxtaposition
  | .oneOf => .level .allOf
  | .anyOf => .level .oneOf

/-- The tokens between two operands. -/
def Combinator.separatorTokens : Combinator → List Token
  | .juxtaposition => []
  | .allOf => [.doubleAmpersand]
  | .oneOf => [.bar]
  | .anyOf => [.doubleBar]

/-- How loosely the operands of a combinator hang together. -/
def Combinator.looseness : Combinator → Nat
  | .juxtaposition => 1
  | .allOf => 2
  | .oneOf => 3
  | .anyOf => 4

/-- How loosely the parts of an expression hang together; leaves, groups and multiplied terms are
tight. -/
def Expr.looseness : Expr → Nat
  | .combined c _ => c.looseness
  | _ => 0

/-- The tightest category of an expression. -/
def Expr.category : Expr → Category
  | .leaf _ | .group _ => .term
  | .multiplied .. => .factor
  | .combined c _ => .level c

/-- The looseness that the expressions of a category do not exceed. -/
def Category.looseness : Category → Nat
  | .term | .factor => 0
  | .level c => c.looseness

theorem looseness_category (e : Expr) : e.category.looseness = e.looseness := by
  cases e <;> rfl

theorem Combinator.looseness_operandCategory_lt (c : Combinator) :
    c.operandCategory.looseness < c.looseness := by
  cases c <;> decide

/-! ## Derivations -/

/-- A number token denotes a count: its text is a run of digits whose value fits 32 bits. -/
def DenotesCount (text : String) (n : UInt32) : Prop :=
  text.toList ≠ [] ∧ (∀ c ∈ text.toList, c.isDigit = true) ∧
    Nat.ofDigitChars 10 text.toList 0 = n.toNat

/-- The tokens of a multiplier. -/
inductive Suffix : List Token → Multiplier → Prop
  | optional : Suffix [.question] .optional
  | zeroOrMore : Suffix [.star] .zeroOrMore
  | oneOrMore : Suffix [.plus] .oneOrMore
  | commaSeparated : Suffix [.hash] .commaSeparated
  | exactly {text : String} {n : UInt32} (h : DenotesCount text n) :
      Suffix [.openBrace, .number text, .closeBrace] (.counted n n)
  | between {low high : String} {least most : UInt32} (hl : DenotesCount low least)
      (hm : DenotesCount high most) (hle : least ≤ most) :
      Suffix [.openBrace, .number low, .comma, .number high, .closeBrace] (.counted least most)

/-- **The grammar**: the tokens that spell an expression of a category. -/
inductive Derives : Category → List Token → Expr → Prop
  | identifier (name : String) : Derives .term [.identifier name] (.leaf (.identifier name))
  | number (text : String) : Derives .term [.number text] (.leaf (.identifier text))
  | typeRef (name : String) : Derives .term [.typeRef name] (.leaf (.typeRef name))
  | quoted (text : String) : Derives .term [.quoted text] (.leaf (.quoted text))
  | group {ts : List Token} {e : Expr} (h : Derives (.level .anyOf) ts e) :
      Derives .term (.openBracket :: (ts ++ [.closeBracket])) (.group e)
  | bare {ts : List Token} {e : Expr} (h : Derives .term ts e) : Derives .factor ts e
  | multiplied {ts us : List Token} {e : Expr} {m : Multiplier} (h : Derives .term ts e)
      (hm : Suffix us m) : Derives .factor (ts ++ us) (.multiplied e m)
  | single {c : Combinator} {ts : List Token} {e : Expr} (h : Derives c.operandCategory ts e) :
      Derives (.level c) ts e
  | several {c : Combinator} {operands : List (List Token × Expr)} (h2 : 2 ≤ operands.length)
      (h : ∀ o ∈ operands, Derives c.operandCategory o.1 o.2) :
      Derives (.level c) (c.separatorTokens.intercalate (operands.map Prod.fst))
        (.combined c (operands.map Prod.snd))

/-- The tokens that spell a whole expression. -/
abbrev Spells (ts : List Token) (e : Expr) : Prop := Derives (.level .anyOf) ts e

/-- An expression of a category is no looser than the category. -/
theorem looseness_le {k : Category} {ts : List Token} {e : Expr} (h : Derives k ts e) :
    e.looseness ≤ k.looseness := by
  induction h with
  | identifier | number | typeRef | quoted | group | multiplied => exact Nat.zero_le _
  | bare _ ih => exact ih
  | single _ ih => exact Nat.le_trans ih (Nat.le_of_lt (Combinator.looseness_operandCategory_lt _))
  | several => exact Nat.le_refl _

theorem derives_level_of_le {c d : Combinator} {ts : List Token} {e : Expr}
    (h : Derives (.level c) ts e) (hl : c.looseness ≤ d.looseness) : Derives (.level d) ts e := by
  cases c <;> cases d <;>
    first
    | exact h
    | exact .single h
    | exact .single (.single h)
    | exact .single (.single (.single h))
    | exact absurd hl (by decide)

/-- What is derived in a category is derived in every looser one. -/
theorem derives_of_looseness_le {k : Category} {c : Combinator} {ts : List Token} {e : Expr}
    (h : Derives k ts e) (hl : k.looseness ≤ c.looseness) : Derives (.level c) ts e := by
  have hc : Combinator.juxtaposition.looseness ≤ c.looseness := by cases c <;> decide
  cases k with
  | term => exact derives_level_of_le (c := .juxtaposition) (.single (.bare h)) hc
  | factor => exact derives_level_of_le (c := .juxtaposition) (.single h) hc
  | level d => exact derives_level_of_le h hl

theorem Category.looseness_le_anyOf (k : Category) :
    k.looseness ≤ Combinator.anyOf.looseness := by
  cases k with
  | term | factor => decide
  | level c => cases c <;> decide

/-- What is derived in any category is a whole expression. -/
theorem spells_of_derives {k : Category} {ts : List Token} {e : Expr} (h : Derives k ts e) :
    Spells ts e :=
  derives_of_looseness_le h k.looseness_le_anyOf

/-- What is derived in a tighter category than a combinator is derived as its operand. -/
theorem derives_operandCategory {k : Category} {c : Combinator} {ts : List Token} {e : Expr}
    (h : Derives k ts e) (hl : k.looseness < c.looseness) : Derives c.operandCategory ts e := by
  cases c with
  | juxtaposition =>
    cases k with
    | term => exact .bare h
    | factor => exact h
    | level d => cases d <;> exact absurd hl (by decide)
  | allOf => exact derives_of_looseness_le h (Nat.le_of_lt_succ hl)
  | oneOf => exact derives_of_looseness_le h (Nat.le_of_lt_succ hl)
  | anyOf => exact derives_of_looseness_le h (Nat.le_of_lt_succ hl)

/-- Operands never have the combinator that joins them. -/
theorem splice_of_looseness_lt {c : Combinator} {e : Expr} (h : e.looseness < c.looseness) :
    c.splice e = [e] := by
  cases e with
  | combined d operands =>
    rw [Combinator.splice, if_neg]
    rintro rfl
    exact Nat.lt_irrefl _ h
  | _ => rfl

theorem splice_of_derives {c : Combinator} {ts : List Token} {e : Expr}
    (h : Derives c.operandCategory ts e) : c.splice e = [e] :=
  splice_of_looseness_lt
    (Nat.lt_of_le_of_lt (looseness_le h) (Combinator.looseness_operandCategory_lt c))

theorem flatMap_splice {c : Combinator} {es : List Expr} (h : ∀ e ∈ es, c.splice e = [e]) :
    es.flatMap c.splice = es := by
  induction es with
  | nil => rfl
  | cons e es ih =>
    obtain ⟨he, hes⟩ := List.forall_mem_cons.mp h
    rw [List.flatMap_cons, he, ih hes, List.singleton_append]

/-- Several operands that are not of the combinator itself are kept apart. -/
theorem collect_of_splice {c : Combinator} {es : List Expr} (h2 : 2 ≤ es.length)
    (h : ∀ e ∈ es, c.splice e = [e]) : c.collect es = .combined c es := by
  rw [Combinator.collect, flatMap_splice h]
  cases es with
  | nil => exact absurd h2 (by decide)
  | cons e es =>
    cases es with
    | nil => exact absurd h2 (by simp)
    | cons e' es => rfl

/-! ## Joined lists -/

section Intercalate

variable {α : Type} {sep x : List α} {xs : List (List α)}

theorem exists_intercalate_cons (sep x : List α) (xs : List (List α)) :
    ∃ ys, sep.intercalate (x :: xs) = x ++ ys := by
  cases xs with
  | nil => exact ⟨[], by simp⟩
  | cons y xs => exact ⟨_, by rw [List.intercalate_cons_cons, List.append_assoc]⟩

theorem forall_mem_intercalate {P : α → Prop} (hsep : ∀ a ∈ sep, P a)
    (hxs : ∀ x ∈ xs, ∀ a ∈ x, P a) : ∀ a ∈ sep.intercalate xs, P a := by
  induction xs with
  | nil => exact List.forall_mem_nil _
  | cons y xs ih =>
    obtain ⟨hy, hxs⟩ := List.forall_mem_cons.mp hxs
    cases xs with
    | nil => simpa using hy
    | cons z xs =>
      rw [List.intercalate_cons_cons, List.append_assoc]
      exact List.forall_mem_append.mpr ⟨hy, List.forall_mem_append.mpr ⟨hsep, ih hxs⟩⟩

theorem mem_intercalate_of_mem {a : α} (hx : x ∈ xs) (ha : a ∈ x) : a ∈ sep.intercalate xs := by
  induction xs with
  | nil => exact absurd hx (by simp)
  | cons y xs ih =>
    cases xs with
    | nil => simp_all
    | cons z xs =>
      rw [List.intercalate_cons_cons, List.append_assoc]
      rcases List.mem_cons.mp hx with rfl | hx
      · exact List.mem_append_left _ ha
      · exact List.mem_append_right _ (List.mem_append_right _ (ih hx))

theorem length_le_length_intercalate (hx : x ∈ xs) :
    x.length ≤ (sep.intercalate xs).length := by
  induction xs with
  | nil => exact absurd hx (by simp)
  | cons y xs ih =>
    cases xs with
    | nil => simp_all
    | cons z xs =>
      rw [List.intercalate_cons_cons, List.length_append, List.length_append]
      rcases List.mem_cons.mp hx with rfl | hx
      · omega
      · have := ih hx
        omega

/-- Lists that are not empty are no more than the items of their join. -/
theorem card_le_length_intercalate (h : ∀ x ∈ xs, x ≠ []) :
    xs.length ≤ (sep.intercalate xs).length := by
  induction xs with
  | nil => exact Nat.zero_le _
  | cons y xs ih =>
    obtain ⟨hy, hxs⟩ := List.forall_mem_cons.mp h
    have hy : 1 ≤ y.length := List.length_pos_iff.mpr hy
    cases xs with
    | nil => simpa using hy
    | cons z xs =>
      have := ih hxs
      rw [List.intercalate_cons_cons, List.length_append, List.length_append]
      rw [List.length_cons (a := y)]
      omega

end Intercalate

/-! ## The tokens of a derivation -/

/-- What is derived begins with a token that can begin a term. -/
theorem exists_startsTerm {k : Category} {ts : List Token} {e : Expr} (h : Derives k ts e) :
    ∃ t rest, ts = t :: rest ∧ t.startsTerm = true := by
  induction h with
  | identifier | number | typeRef | quoted | group => exact ⟨_, _, rfl, rfl⟩
  | bare _ ih | single _ ih => exact ih
  | multiplied _ _ ih =>
    obtain ⟨t, rest, rfl, ht⟩ := ih
    exact ⟨t, _, rfl, ht⟩
  | @several c operands h2 _ ih =>
    match operands, h2 with
    | o :: o' :: rest, _ =>
      obtain ⟨t, more, hts, ht⟩ := ih o List.mem_cons_self
      rw [List.map_cons, List.map_cons, List.intercalate_cons_cons, hts]
      exact ⟨t, _, rfl, ht⟩

theorem ne_nil_of_derives {k : Category} {ts : List Token} {e : Expr} (h : Derives k ts e) :
    ts ≠ [] := by
  obtain ⟨t, rest, rfl, -⟩ := exists_startsTerm h
  simp

theorem ne_endOfInput_of_suffix {ts : List Token} {m : Multiplier} (h : Suffix ts m) :
    ∀ t ∈ ts, t ≠ .endOfInput := by
  cases h <;> simp

/-- The end of the input is no token of a derivation. -/
theorem ne_endOfInput_of_derives {k : Category} {ts : List Token} {e : Expr}
    (h : Derives k ts e) : ∀ t ∈ ts, t ≠ .endOfInput := by
  induction h with
  | identifier | number | typeRef | quoted => simp
  | group _ ih =>
    exact List.forall_mem_cons.mpr ⟨by simp, List.forall_mem_append.mpr ⟨ih, by simp⟩⟩
  | bare _ ih | single _ ih => exact ih
  | multiplied _ hm ih => exact List.forall_mem_append.mpr ⟨ih, ne_endOfInput_of_suffix hm⟩
  | @several c operands _ _ ih =>
    refine forall_mem_intercalate ?_ (List.forall_mem_map.mpr ih)
    cases c <;> simp [Combinator.separatorTokens]

/-! ## The token after -/

/-- Whether a multiplier begins with this token. -/
def Token.startsMultiplier : Token → Bool
  | .star | .plus | .question | .hash | .openBrace => true
  | _ => false

/-- Whether this token goes on with another operand of a combinator. -/
def Combinator.continuedBy : Combinator → Token → Bool
  | .juxtaposition, t => t.startsTerm
  | .allOf, t => t = .doubleAmpersand
  | .oneOf, t => t = .bar
  | .anyOf, t => t = .doubleBar

/-- Whether an expression of a category is complete before this token: no multiplier begins, and
none of the combinators that the category allows goes on. -/
def Category.endsBefore : Category → Token → Bool
  | .term, _ => true
  | .factor, t => !t.startsMultiplier
  | .level c, t =>
    !t.startsMultiplier && [.juxtaposition, .allOf, .oneOf, .anyOf].all fun d : Combinator =>
      c.looseness < d.looseness || !d.continuedBy t

/-- An expression is complete when its last operand is and no other operand follows. -/
theorem endsBefore_level {c : Combinator} {t : Token} :
    (Category.level c).endsBefore t = (c.operandCategory.endsBefore t && !c.continuedBy t) := by
  cases c <;>
    simp [Category.endsBefore, Combinator.operandCategory, Combinator.looseness, Bool.and_assoc]

/-- An operand is complete before the token that goes on with the next one. -/
theorem endsBefore_of_continuedBy {c : Combinator} {t : Token} (h : c.continuedBy t = true) :
    c.operandCategory.endsBefore t = true := by
  cases c <;> cases t <;>
    first
    | rfl
    | exact absurd h (by simp [Combinator.continuedBy, Token.startsTerm])

end ValueGrammar
