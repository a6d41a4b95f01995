import ValueGrammar.Proofs.Grammar
import ValueGrammar.Proofs.Scanning

/-!
# The shape of expressions

An expression is printable if its leaves are texts that lexemes can stand for, its counts are in
order, and every combinator joins two or more operands that hang together more tightly. It is
canonical if, besides, only leaves and groups are multiplied.

Headlines:
* **`canonical_of_derives`**: what lexable tokens spell is canonical.
* **`bracketBodies_of_canonical`**: a canonical expression needs no more brackets.
-/

namespace ValueGrammar

/-! ## Leaves and tokens -/

/-- Whether a lexeme can stand for a leaf. -/
def Leaf.Lexable : Leaf → Prop
  | .identifier name => Lexeme.IsName name.toList ∨ Lexeme.IsNumeral name.toList
  | .typeRef name => Lexeme.IsTypeName name.toList
  | .quoted text => Lexeme.IsQuotable text.toList

/-- Whether a lexeme can stand for a token. -/
def Token.Lexable : Token → Prop
  | .identifier name => Lexeme.IsName name.toList
  | .number text => Lexeme.IsNumeral text.toList
  | .typeRef name => Lexeme.IsTypeName name.toList
  | .quoted text => Lexeme.IsQuotable text.toList
  | _ => True

theorem toList_inside (c d : Char) (cs : List Char) :
    (Pattern.inside (c :: (cs ++ [d]))).toList = cs := by
  rw [Pattern.inside, String.toList_ofList, List.tail_cons, List.dropLast_concat]

/-- The token of a lexeme is lexable. -/
theorem lexable_of_split? {p : Pattern} {cs lexeme rest : List Char} {t : Token}
    (h : p.split? cs = some (lexeme, rest)) (ht : p.token? lexeme = some t) : t.Lexable := by
  cases p with
  | identifier =>
    cases ht
    rw [Token.Lexable, String.toList_ofList]
    exact Lexeme.isName_of_run h
  | number =>
    cases ht
    rw [Token.Lexable, String.toList_ofList]
    exact Lexeme.isNumeral_of_number h
  | typeRef =>
    obtain ⟨ds, d, rfl, hds, -, hne⟩ := Lexeme.exists_of_enclosed h
    cases ht
    rw [Token.Lexable, toList_inside]
    exact ⟨hne.resolve_left (by simp), hds⟩
  | doubleQuoted =>
    obtain ⟨ds, d, rfl, hds, -, hne⟩ := Lexeme.exists_of_enclosed h
    cases ht
    rw [Token.Lexable, toList_inside]
    exact .inl ⟨hne.resolve_left (by simp), fun hm => absurd (hds _ hm) (by decide)⟩
  | singleQuoted =>
    obtain ⟨ds, d, rfl, hds, -, hne⟩ := Lexeme.exists_of_enclosed h
    cases ht
    rw [Token.Lexable, toList_inside]
    exact .inr (.inl ⟨hne.resolve_left (by simp), fun hm => absurd (hds _ hm) (by decide)⟩)
  | curlyQuoted =>
    obtain ⟨ds, d, rfl, hds, -, -⟩ := Lexeme.exists_of_enclosed h
    cases ht
    rw [Token.Lexable, toList_inside]
    exact .inr (.inr ⟨fun hm => absurd (hds _ hm) (by decide),
      fun hm => absurd (hds _ hm) (by decide)⟩)
  | blanks | comment => cases ht
  | _ =>
    cases ht
    trivial

/-- Every token of an input is lexable. -/
theorem lexable_of_tokenize {input : String} {ts : List Token} (h : tokenize input = .ok ts) :
    ∀ t ∈ ts, t.Lexable :=
  tokens_all (scanFrom_all lexable_of_split? 0 input.toList) h

/-! ## Expressions -/

/-- Whether the counts of a multiplier are in order. -/
def Multiplier.Ordered : Multiplier → Prop
  | .counted least most => least ≤ most
  | _ => True

/-- **The shape of an expression**: lexable leaves, counts in order, and for every combinator two
or more operands that are tighter; what is multiplied has a given property. -/
inductive Shaped (IsBody : Expr → Prop) : Expr → Prop
  | leaf {l : Leaf} (h : l.Lexable) : Shaped IsBody (.leaf l)
  | group {body : Expr} (h : Shaped IsBody body) : Shaped IsBody (.group body)
  | multiplied {body : Expr} {m : Multiplier} (h : Shaped IsBody body) (hb : IsBody body)
      (hm : m.Ordered) : Shaped IsBody (.multiplied body m)
  | combined {c : Combinator} {operands : List Expr} (h2 : 2 ≤ operands.length)
      (hl : ∀ e ∈ operands, e.looseness < c.looseness) (h : ∀ e ∈ operands, Shaped IsBody e) :
      Shaped IsBody (.combined c operands)

/-- An expression that can be written so that it is read back, up to brackets. -/
abbrev Printable : Expr → Prop := Shaped fun _ => True

/-- A printable expression in which only leaves and groups are multiplied. -/
abbrev Canonical : Expr → Prop := Shaped fun body => body.isTerm = true

theorem printable_of_canonical {e : Expr} (h : Canonical e) : Printable e := by
  induction h with
  | leaf h => exact .leaf h
  | group _ ih => exact .group ih
  | multiplied _ _ hm ih => exact .multiplied ih trivial hm
  | combined h2 hl _ ih => exact .combined h2 hl ih

/-! ## Derived expressions -/

theorem ordered_of_suffix {ts : List Token} {m : Multiplier} (h : Suffix ts m) : m.Ordered := by
  cases h with
  | exactly => exact UInt32.le_refl _
  | between _ _ hle => exact hle
  | _ => trivial

theorem isTerm_of_derives {ts : List Token} {e : Expr} (h : Derives .term ts e) :
    e.isTerm = true := by
  cases h <;> rfl

/-- What lexable tokens spell is canonical. -/
theorem canonical_of_derives {k : Category} {ts : List Token} {e : Expr} (h : Derives k ts e)
    (hts : ∀ t ∈ ts, t.Lexable) : Canonical e := by
  induction h with
  | identifier name => exact .leaf (.inl (hts _ List.mem_cons_self))
  | number text => exact .leaf (.inr (hts _ List.mem_cons_self))
  | typeRef name | quoted text => exact .leaf (hts _ List.mem_cons_self)
  | group _ ih => exact .group (ih fun t ht => hts t (by simp [ht]))
  | bare _ ih | single _ ih => exact ih hts
  | multiplied h hm ih =>
    refine .multiplied (ih fun t ht => hts t (List.mem_append_left _ ht)) (isTerm_of_derives h) ?_
    exact ordered_of_suffix hm
  | @several c operands h2 h ih =>
    refine .combined (by simpa using h2) (List.forall_mem_map.mpr fun o ho => ?_)
      (List.forall_mem_map.mpr fun o ho => ?_)
    · exact Nat.lt_of_le_of_lt (looseness_le (h o ho))
        (Combinator.looseness_operandCategory_lt c)
    · exact ih o ho fun t ht => hts t (mem_intercalate_of_mem (List.mem_map_of_mem ho) ht)

/-! ## Brackets -/

namespace Expr

mutual

/-- The expression with a group around everything multiplied that is neither a leaf nor a group. -/
def bracketBodies : Expr → Expr
  | .leaf l => .leaf l
  | .group body => .group body.bracketBodies
  | .multiplied body m =>
    .multiplied (if body.isTerm then body.bracketBodies else .group body.bracketBodies) m
  | .combined c operands => .combined c (bracketBodiesEach operands)

/-- The same for several expressions. -/
def bracketBodiesEach : List Expr → List Expr
  | [] => []
  | e :: es => e.bracketBodies :: bracketBodiesEach es

end

@[simp] theorem bracketBodiesEach_eq_map :
    ∀ es : List Expr, bracketBodiesEach es = es.map bracketBodies
  | [] => rfl
  | e :: es => by rw [bracketBodiesEach, bracketBodiesEach_eq_map es, List.map_cons]

end Expr

/-- A canonical expression needs no more brackets. -/
theorem bracketBodies_of_canonical {e : Expr} (h : Canonical e) : e.bracketBodies = e := by
  induction h with
  | leaf => rfl
  | group _ ih => rw [Expr.bracketBodies, ih]
  | multiplied _ hb _ ih => rw [Expr.bracketBodies, if_pos hb, ih]
  | combined _ _ _ ih =>
    rw [Expr.bracketBodies, Expr.bracketBodiesEach_eq_map, List.map_congr_left ih, List.map_id']

end ValueGrammar
