import Mathlib.Data.List.Forall2
import Mathlib.Order.Nat
import ValueGrammar.Proofs.Reference

/-!
# Expansion in texts and in trees

Type references are expanded in the text, in passes. An expression has a tree, and there one would
replace the leaves that are type references, each by the tree of its definition, whose own types
are resolved in the same way. The two agree where all definitions are expressions, and neither the
text nor a definition has comments or quoted references to defined names.

One pass is followed through three layers. In a text, the references are the pieces of one pattern,
since no other piece has a `<` but for a quoted text, and none leaves a reference open. The pieces
of the new text are those of the old one with references replaced, since brackets prolong nothing.
So its tokens are those of the old text with references replaced, and derivations replace a leaf,
which is a term, by a group, which is one too.

Headlines:
* **`pieces_flatMap_replacement`**: one pass over a text replaces its pieces.
* **`parse_substitute`**: one pass replaces the leaves of the tree.
* **`resolves_unique`**: there is one way to resolve the types of an expression.
* **`parse_expand`**: expanding a text is resolving the types of its tree.
-/

namespace ValueGrammar

variable {p : Pattern} {cs ds lexeme rest : List Char} {ts : List Token}

/-! ## Texts that can be expanded -/

/-- Whether a token is a quoted text that contains a reference to a name. -/
def Token.Quotes (name : String) : Token → Prop
  | .quoted text => ('<' :: (name.toList ++ ['>'])) <:+: text.toList
  | _ => False

instance (name : String) (t : Token) : Decidable (t.Quotes name) :=
  match t with
  | .quoted text => inferInstanceAs (Decidable (_ <:+: text.toList))
  | .identifier _ | .typeRef _ | .number _ | .doubleBar | .bar | .doubleAmpersand | .star | .plus
  | .question | .hash | .openBrace | .closeBrace | .openBracket | .closeBracket | .comma
  | .endOfInput => inferInstanceAs (Decidable False)

namespace TypeTable

/-- Whether a piece is neither a comment nor a quoted reference to a defined name. -/
def IsPlain (t : TypeTable) (p : Piece) : Prop :=
  p.pattern ≠ .comment ∧ ∀ u ∈ p.token?, ∀ name ∈ t.definitions.keys, ¬ u.Quotes name

/-- Whether a text contains neither comments nor quoted references to defined names. -/
def Plain (t : TypeTable) (text : String) : Prop := ∀ p ∈ pieces text.toList, t.IsPlain p

instance (t : TypeTable) (text : String) : Decidable (t.Plain text) :=
  inferInstanceAs (Decidable (∀ p ∈ pieces text.toList, _ ∧ _))

/-- Whether all definitions of a table are expressions and plain. -/
structure Readable (t : TypeTable) : Prop where
  parses : ∀ {name definition : String}, t.get? name = some definition →
    ∃ d, Expr.parse definition = .ok d
  plain : ∀ {name definition : String}, t.get? name = some definition → t.Plain definition

/-- The definition that a token refers to. -/
def definition? (t : TypeTable) : Token → Option String
  | .typeRef name => t.get? name
  | _ => none

/-- The pieces that replace a piece: those of its definition in brackets, if there is one. -/
def replacePiece (t : TypeTable) (p : Piece) : List Piece :=
  match p.token?.bind t.definition? with
  | some definition =>
    ⟨.openBracket, ['[']⟩ :: (pieces definition.toList ++ [⟨.closeBracket, [']']⟩])
  | none => [p]

/-- The tokens that replace a token. -/
def replaceToken (t : TypeTable) (u : Token) : List Token :=
  match t.definition? u with
  | some definition => .openBracket :: (tokensOf (pieces definition.toList) ++ [.closeBracket])
  | none => [u]

/-! ## One pass -/

variable {t : TypeTable}

/-- A text without references to defined names is left alone. -/
theorem flatMap_replacement_of_not_infix
    (h : ∀ name ∈ t.definitions.keys, ¬ ('<' :: (name.toList ++ ['>'])) <:+: cs) :
    (fragmentsOf cs).flatMap t.replacement = cs := by
  refine replaced_eq_self_iff.mpr fun name href => ?_
  refine Option.eq_none_iff_forall_ne_some.mpr fun definition hd => ?_
  exact h name (Dictionary.mem_keys_iff.mpr ⟨definition, hd⟩) href.2

theorem exists_get?_of_definition? {o : Option Token} {definition : String}
    (h : o.bind t.definition? = some definition) :
    ∃ name, o = some (.typeRef name) ∧ t.get? name = some definition := by
  obtain ⟨u, rfl, hu⟩ := Option.bind_eq_some_iff.mp h
  cases u with
  | typeRef name => exact ⟨name, rfl, hu⟩
  | _ => cases hu

/-- The text of what replaces a reference is its definition in brackets. -/
theorem flatMap_text_replacePiece (ht : t.Readable) {q : Piece} {definition : String}
    (hd : q.token?.bind t.definition? = some definition) :
    (t.replacePiece q).flatMap Piece.text = '[' :: (definition.toList ++ [']']) := by
  obtain ⟨name, -, hname⟩ := exists_get?_of_definition? hd
  obtain ⟨e, he⟩ := ht.parses hname
  rw [replacePiece, hd]
  simp [flatMap_text_pieces (parse_ok_iff_pieces.mp he).1]

/-- **One piece**: its text is replaced by the text of the pieces that replace it. -/
theorem flatMap_replacement_piece (ht : t.Readable) (h : p.split? cs = some (lexeme, rest))
    (hplain : t.IsPlain ⟨p, lexeme⟩) :
    (fragmentsOf lexeme).flatMap t.replacement =
      (t.replacePiece ⟨p, lexeme⟩).flatMap Piece.text := by
  by_cases href : p = .typeRef
  · subst href
    have hfragments : fragmentsOf lexeme = [.reference (Pattern.inside lexeme)] := by
      have hs : Pattern.typeRef.split? (lexeme ++ []) = some (lexeme, []) := by
        rw [← Pattern.append_of_split? h] at h
        exact Lexeme.enclosed_of_append (by simp [isNameStart]) h []
      rw [List.append_nil] at hs
      rw [fragmentsOf_reference hs, fragmentsOf_nil]
    have htoken : (Piece.token? ⟨.typeRef, lexeme⟩).bind t.definition? =
      t.get? (Pattern.inside lexeme) := rfl
    rw [hfragments, List.flatMap_cons, List.flatMap_nil, List.append_nil, replacement]
    cases hd : t.get? (Pattern.inside lexeme) with
    | none =>
      rw [replacePiece, htoken, hd, List.flatMap_singleton]
      exact (eq_of_typeRef h).symm
    | some definition => exact (flatMap_text_replacePiece ht (htoken.trans hd)).symm
  · have hdefinition : (Piece.token? ⟨p, lexeme⟩).bind t.definition? = none := by
      cases p with
      | typeRef => exact absurd rfl href
      | _ => rfl
    rw [replacePiece, hdefinition, List.flatMap_cons, List.flatMap_nil, List.append_nil]
    refine flatMap_replacement_of_not_infix fun name hname hi => ?_
    rcases notMem_or_quoted h hplain.1 href with hmem | ⟨opening, d, ds, hq⟩
    · exact hmem (hi.subset List.mem_cons_self)
    · refine hplain.2 _ hq.token name hname ?_
      rw [Token.Quotes, hq.eq, toList_inside]
      exact infix_of_quoted hq hi

theorem first?_openBracket (rest : List Char) :
    Pattern.first? ('[' :: rest) = some (.openBracket, ['['], rest) :=
  Pattern.first?_of_split? (p := .openBracket) (Lexeme.fixed_append ['['] rest) (by simp)

theorem first?_closeBracket (rest : List Char) :
    Pattern.first? (']' :: rest) = some (.closeBracket, [']'], rest) :=
  Pattern.first?_of_split? (p := .closeBracket) (Lexeme.fixed_append [']'] rest) (by simp)

/-- A definition in brackets is cut into its own pieces in front of everything. -/
theorem cuttable_bracketed (ht : t.Readable) {name definition : String}
    (hd : t.get? name = some definition) (h : Cuttable rest) :
    Cuttable ('[' :: (definition.toList ++ ']' :: rest)) ∧
      pieces ('[' :: (definition.toList ++ ']' :: rest)) =
        ⟨.openBracket, ['[']⟩ :: (pieces definition.toList ++ ⟨.closeBracket, [']']⟩ :: pieces rest) := by
  obtain ⟨e, he⟩ := ht.parses hd
  obtain ⟨hc, hp⟩ := (parse_ok_iff_pieces.mp he).1.append (fun p hp => (ht.plain hd p hp).1)
    (.cons (first?_closeBracket rest) h) (.inr (.inr rfl))
  refine ⟨.cons (first?_openBracket _) hc, ?_⟩
  rw [pieces_of_first? (first?_openBracket _), hp, pieces_of_first? (first?_closeBracket rest)]

/-- **One pass over a text replaces its pieces**, one by one. -/
theorem pieces_flatMap_replacement (ht : t.Readable) (h : Cuttable cs)
    (hplain : ∀ p ∈ pieces cs, t.IsPlain p) :
    (Cuttable ((fragmentsOf cs).flatMap t.replacement) ∧
      pieces ((fragmentsOf cs).flatMap t.replacement) = (pieces cs).flatMap t.replacePiece) ∧
        BeginsLike cs ((fragmentsOf cs).flatMap t.replacement) := by
  induction h with
  | nil =>
    rw [fragmentsOf_nil, List.flatMap_nil, pieces_nil]
    exact ⟨⟨.nil, rfl⟩, .inl rfl⟩
  | @cons p cs lexeme rest h hrest ih =>
    have hsplit := Pattern.split?_of_first? h
    rw [pieces_of_first? h] at hplain ⊢
    obtain ⟨hp, hplain⟩ := List.forall_mem_cons.mp hplain
    obtain ⟨⟨hcut, hpieces⟩, hlike⟩ := ih hplain
    rw [List.flatMap_cons, ← hpieces, ← append_of_first? h,
      fragmentsOf_append (keptApart_of_split? hsplit), List.flatMap_append,
      flatMap_replacement_piece ht hsplit hp]
    cases hd : (Piece.token? ⟨p, lexeme⟩).bind t.definition? with
    | some definition =>
      obtain ⟨name, -, hname⟩ := exists_get?_of_definition? hd
      have hbracketed := cuttable_bracketed ht hname hcut
      rw [flatMap_text_replacePiece ht hd, List.cons_append, List.append_assoc, replacePiece, hd]
      exact ⟨⟨hbracketed.1, by simpa using hbracketed.2⟩, .inr (.inl rfl)⟩
    | none =>
      have hf := Pattern.first?_of_beginsLike h hp.1 (stops_point_of_cuttable hrest) hlike
      have hone : t.replacePiece ⟨p, lexeme⟩ = [⟨p, lexeme⟩] := by rw [replacePiece, hd]
      rw [hone, List.flatMap_singleton]
      refine ⟨⟨.cons hf hcut, pieces_of_first? hf⟩, .inl ?_⟩
      obtain ⟨c, ds, hc⟩ := List.exists_cons_of_ne_nil (Pattern.ne_nil_of_split? hsplit)
      rw [hc]
      rfl

/-- What replaces a plain piece is plain. -/
theorem isPlain_replacePiece (ht : t.Readable) {q : Piece} (h : t.IsPlain q) :
    ∀ r ∈ t.replacePiece q, t.IsPlain r := by
  rw [replacePiece]
  cases hd : q.token?.bind t.definition? with
  | none => exact List.forall_mem_singleton.mpr h
  | some definition =>
    obtain ⟨name, -, hname⟩ := exists_get?_of_definition? hd
    refine List.forall_mem_cons.mpr ⟨⟨by decide, ?_⟩, List.forall_mem_append.mpr
      ⟨ht.plain hname, List.forall_mem_singleton.mpr ⟨by decide, ?_⟩⟩⟩
    all_goals
      rintro u ⟨⟩ name -
      exact id

/-- Replacing pieces replaces their tokens. -/
theorem tokensOf_flatMap_replacePiece (t : TypeTable) (ps : List Piece) :
    tokensOf (ps.flatMap t.replacePiece) = (tokensOf ps).flatMap t.replaceToken := by
  induction ps with
  | nil => rfl
  | cons p ps ih =>
    rw [List.flatMap_cons, tokensOf_append, ih]
    cases hu : p.token? with
    | none =>
      rw [tokensOf_cons_none hu, replacePiece, hu]
      exact congrArg (· ++ _) (tokensOf_cons_none hu)
    | some u =>
      rw [tokensOf_cons_some hu, List.flatMap_cons, replacePiece, replaceToken, hu,
        Option.bind_some]
      congr 1
      cases t.definition? u with
      | none => exact tokensOf_cons_some hu
      | some definition =>
        dsimp only
        rw [tokensOf_cons_some (t := .openBracket) rfl, tokensOf_append]
        rfl

end TypeTable

/-! ## Definitions in trees -/

namespace Expr

mutual

/-- An expression with every type reference that stands for an expression replaced by it, in
brackets. -/
def replaceTypes (f : String → Option Expr) : Expr → Expr
  | .leaf (.typeRef name) =>
    match f name with
    | some d => .group d
    | none => .leaf (.typeRef name)
  | .leaf l => .leaf l
  | .group body => .group (body.replaceTypes f)
  | .multiplied body m => .multiplied (body.replaceTypes f) m
  | .combined c operands => .combined c (replaceTypesEach f operands)

/-- The same for several expressions. -/
def replaceTypesEach (f : String → Option Expr) : List Expr → List Expr
  | [] => []
  | e :: es => e.replaceTypes f :: replaceTypesEach f es

end

@[simp] theorem replaceTypesEach_eq_map (f : String → Option Expr) :
    ∀ es : List Expr, replaceTypesEach f es = es.map (replaceTypes f)
  | [] => rfl
  | e :: es => by rw [replaceTypesEach, replaceTypesEach_eq_map f es, List.map_cons]

end Expr

namespace TypeTable

variable {t : TypeTable}

/-- The expression that a name is defined as. -/
def tree? (t : TypeTable) (name : String) : Option Expr :=
  (t.get? name).bind fun definition => (Expr.parse definition).toOption

theorem tree?_of_get? {name definition : String} {d : Expr} (h : t.get? name = some definition)
    (hd : Expr.parse definition = .ok d) : t.tree? name = some d := by
  rw [tree?, h, Option.bind_some, hd]
  rfl

theorem tree?_of_none {name : String} (h : t.get? name = none) : t.tree? name = none := by
  rw [tree?, h, Option.bind_none]

/-- The tokens of a multiplier are not replaced. -/
theorem flatMap_replaceToken_suffix {us : List Token} {m : Multiplier} (h : Suffix us m) :
    us.flatMap t.replaceToken = us := by
  cases h <;> rfl

theorem flatMap_replaceToken_intercalate (t : TypeTable) (c : Combinator)
    (xs : List (List Token)) :
    (c.separatorTokens.intercalate xs).flatMap t.replaceToken =
      c.separatorTokens.intercalate (xs.map (List.flatMap t.replaceToken)) := by
  have hsep : c.separatorTokens.flatMap t.replaceToken = c.separatorTokens := by
    cases c <;> rfl
  induction xs with
  | nil => rfl
  | cons x xs ih =>
    cases xs with
    | nil => simp
    | cons y xs =>
      rw [List.map_cons, List.map_cons] at *
      rw [List.intercalate_cons_cons, List.intercalate_cons_cons, List.flatMap_append,
        List.flatMap_append, ih, hsep]

/-- Replacing tokens replaces the leaves of the tree that they spell. -/
theorem derives_replaceTypes (ht : t.Readable) {k : Category} {e : Expr} (h : Derives k ts e) :
    Derives k (ts.flatMap t.replaceToken) (e.replaceTypes t.tree?) := by
  induction h with
  | identifier name => exact .identifier name
  | number text => exact .number text
  | quoted text => exact .quoted text
  | typeRef name =>
    rw [Expr.replaceTypes, List.flatMap_singleton, replaceToken, definition?]
    cases hd : t.get? name with
    | none =>
      rw [tree?_of_none hd]
      exact .typeRef name
    | some definition =>
      obtain ⟨d, hparse⟩ := ht.parses hd
      rw [tree?_of_get? hd hparse]
      exact .group (parse_ok_iff_pieces.mp hparse).2
  | @group ts e _ ih =>
    have htokens : (.openBracket :: (ts ++ [.closeBracket])).flatMap t.replaceToken =
        .openBracket :: (ts.flatMap t.replaceToken ++ [.closeBracket]) := by
      rw [List.flatMap_cons, List.flatMap_append]
      rfl
    rw [htokens, Expr.replaceTypes]
    exact .group ih
  | bare _ ih => exact .bare ih
  | single _ ih => exact .single ih
  | multiplied _ hm ih =>
    rw [List.flatMap_append, flatMap_replaceToken_suffix hm, Expr.replaceTypes]
    exact .multiplied ih hm
  | @several c operands h2 _ ih =>
    have hreplaced : Derives (.level c)
        (c.separatorTokens.intercalate ((operands.map
          fun o => (o.1.flatMap t.replaceToken, o.2.replaceTypes t.tree?)).map Prod.fst))
        (.combined c ((operands.map
          fun o => (o.1.flatMap t.replaceToken, o.2.replaceTypes t.tree?)).map Prod.snd)) :=
      .several (by simpa using h2) (List.forall_mem_map.mpr ih)
    rw [flatMap_replaceToken_intercalate, Expr.replaceTypes, Expr.replaceTypesEach_eq_map,
      List.map_map, List.map_map]
    rwa [List.map_map, List.map_map] at hreplaced

/-- **One pass replaces the defined leaves of the tree**, and what comes out is plain again. -/
theorem parse_substitute (ht : t.Readable) {text : String} {e : Expr}
    (he : Expr.parse text = .ok e) (hplain : t.Plain text) :
    Expr.parse (t.substitute text) = .ok (e.replaceTypes t.tree?) ∧ t.Plain (t.substitute text) := by
  obtain ⟨hcut, hspells⟩ := parse_ok_iff_pieces.mp he
  obtain ⟨⟨hcut', hpieces⟩, -⟩ := pieces_flatMap_replacement ht hcut hplain
  rw [parse_ok_iff_pieces, Plain, substitute, String.toList_ofList, hpieces,
    tokensOf_flatMap_replacePiece]
  refine ⟨⟨hcut', derives_replaceTypes ht hspells⟩, fun r hr => ?_⟩
  obtain ⟨p, hp, hr⟩ := List.mem_flatMap.mp hr
  exact isPlain_replacePiece ht (hplain p hp) r hr

/-! ## Expansion -/

/-- **The expression with its types resolved**: every reference to a defined name is replaced by
its definition in brackets, with its own types resolved, and nothing else is changed. -/
inductive Resolves (t : TypeTable) : Expr → Expr → Prop
  | leaf {l : Leaf} (h : ∀ name, l = .typeRef name → t.get? name = none) :
      Resolves t (.leaf l) (.leaf l)
  | typeRef {name definition : String} {d r : Expr} (h : t.get? name = some definition)
      (hd : Expr.parse definition = .ok d) (hr : Resolves t d r) :
      Resolves t (.leaf (.typeRef name)) (.group r)
  | group {body r : Expr} (h : Resolves t body r) : Resolves t (.group body) (.group r)
  | multiplied {body r : Expr} {m : Multiplier} (h : Resolves t body r) :
      Resolves t (.multiplied body m) (.multiplied r m)
  | combined {c : Combinator} {operands : List (Expr × Expr)}
      (h : ∀ o ∈ operands, Resolves t o.1 o.2) :
      Resolves t (.combined c (operands.map Prod.fst)) (.combined c (operands.map Prod.snd))

theorem resolves_combined_iff {c : Combinator} {operands : List Expr} {r : Expr} :
    t.Resolves (.combined c operands) r ↔
      ∃ results, r = .combined c results ∧ List.Forall₂ t.Resolves operands results := by
  constructor
  · intro h
    generalize hd : Expr.combined c operands = d at h
    cases h with
    | combined h =>
      cases hd
      refine ⟨_, rfl, ?_⟩
      rw [List.forall₂_map_left_iff, List.forall₂_map_right_iff, List.forall₂_same]
      exact h
    | _ => cases hd
  · rintro ⟨results, rfl, h⟩
    obtain ⟨hlen, hall⟩ := List.forall₂_iff_zip.mp h
    have hzip : t.Resolves (.combined c ((operands.zip results).map Prod.fst))
        (.combined c ((operands.zip results).map Prod.snd)) := .combined fun _ ho => hall ho
    rwa [List.map_fst_zip hlen.le, List.map_snd_zip hlen.ge] at hzip

theorem eq_map_of_forall₂ {α β : Type} {R : α → β → Prop} {f : α → β} {as : List α} {bs : List β}
    (h : List.Forall₂ R as bs) (hR : ∀ a ∈ as, ∀ b, R a b → b = f a) : bs = as.map f := by
  induction h with
  | nil => rfl
  | cons h _ ih =>
    obtain ⟨ha, has⟩ := List.forall_mem_cons.mp hR
    rw [List.map_cons, ha _ h, ih has]

/-- There is at most one way to resolve the types of an expression. -/
theorem resolves_unique {e r : Expr} (h : t.Resolves e r) : ∀ s, t.Resolves e s → s = r := by
  induction h with
  | leaf h =>
    intro s hs
    cases hs with
    | leaf => rfl
    | typeRef hd => exact absurd (h _ rfl) (by simp [hd])
  | typeRef hd hparse _ ih =>
    intro s hs
    cases hs with
    | leaf h => exact absurd (h _ rfl) (by simp [hd])
    | typeRef hd' hparse' hs =>
      cases hd.symm.trans hd'
      cases hparse.symm.trans hparse'
      rw [ih _ hs]
  | group _ ih | multiplied _ ih =>
    intro s hs
    cases hs with
    | _ hs => rw [ih _ hs]
  | @combined c operands _ ih =>
    intro s hs
    obtain ⟨results, rfl, hall⟩ := resolves_combined_iff.mp hs
    rw [List.forall₂_map_left_iff] at hall
    rw [eq_map_of_forall₂ hall ih]

/-- Resolving the types after one replacement of them resolves them all. -/
theorem resolves_of_replaceTypes (ht : t.Readable) :
    ∀ (e : Expr) {r : Expr}, t.Resolves (e.replaceTypes t.tree?) r → t.Resolves e r := by
  intro e
  induction e using Expr.inductionOn with
  | leaf l =>
    intro r h
    cases l with
    | identifier | quoted => exact h
    | typeRef name =>
      rw [Expr.replaceTypes] at h
      cases hd : t.get? name with
      | none =>
        rw [tree?_of_none hd] at h
        exact h
      | some definition =>
        obtain ⟨d, hparse⟩ := ht.parses hd
        rw [tree?_of_get? hd hparse] at h
        cases h with
        | group h => exact .typeRef hd hparse h
  | group body ih =>
    intro r h
    rw [Expr.replaceTypes] at h
    cases h with
    | group h => exact .group (ih h)
  | multiplied body m ih =>
    intro r h
    rw [Expr.replaceTypes] at h
    cases h with
    | multiplied h => exact .multiplied (ih h)
  | combined c operands ih =>
    intro r h
    rw [Expr.replaceTypes, Expr.replaceTypesEach_eq_map] at h
    obtain ⟨results, rfl, hall⟩ := resolves_combined_iff.mp h
    refine resolves_combined_iff.mpr ⟨results, rfl, ?_⟩
    obtain ⟨hlen, hall⟩ := List.forall₂_iff_zip.mp (List.forall₂_map_left_iff.mp hall)
    refine List.forall₂_iff_zip.mpr ⟨hlen, fun {e r} her => ?_⟩
    exact ih e (List.of_mem_zip her).1 (hall her)

/-- An expression that does not change is resolved. -/
theorem resolves_self (ht : t.Readable) :
    ∀ e : Expr, e.replaceTypes t.tree? = e → t.Resolves e e := by
  intro e
  induction e using Expr.inductionOn with
  | leaf l =>
    intro h
    refine .leaf fun name hl => ?_
    subst hl
    cases hd : t.get? name with
    | none => rfl
    | some definition =>
      obtain ⟨d, hparse⟩ := ht.parses hd
      rw [Expr.replaceTypes, tree?_of_get? hd hparse] at h
      cases h
  | group body ih =>
    intro h
    rw [Expr.replaceTypes] at h
    exact .group (ih (Expr.group.inj h))
  | multiplied body m ih =>
    intro h
    rw [Expr.replaceTypes] at h
    exact .multiplied (ih (Expr.multiplied.inj h).1)
  | combined c operands ih =>
    intro h
    rw [Expr.replaceTypes, Expr.replaceTypesEach_eq_map] at h
    have hmap : operands.map (Expr.replaceTypes t.tree?) = operands.map id := by
      rw [List.map_id, (Expr.combined.inj h).2]
    refine resolves_combined_iff.mpr ⟨operands, rfl, List.forall₂_same.mpr fun e he => ?_⟩
    exact ih e he (List.map_inj_left.mp hmap e he)

/-- Passes that settle resolve all types. -/
theorem exists_resolved_of_settle (ht : t.Readable) {x : Expansion} :
    ∀ {left passes : Nat} {undefined : Dictionary Unit} {text : String} {e : Expr},
      Expr.parse text = .ok e → t.Plain text → t.settle left passes undefined text = some x →
      ∃ r, t.Resolves e r ∧ Expr.parse x.text = .ok r
  | 0, _, _, _, _, _, _, h => by cases h
  | left + 1, passes, undefined, text, e, he, hplain, h => by
    obtain ⟨hnext, hplain'⟩ := parse_substitute ht he hplain
    rw [settle] at h
    split at h
    · rename_i hsame
      cases h
      rw [hsame, he] at hnext
      exact ⟨e, resolves_self ht e (Except.ok.inj hnext).symm, he⟩
    · obtain ⟨r, hr, hparse⟩ := exists_resolved_of_settle ht hnext hplain' h
      exact ⟨r, resolves_of_replaceTypes ht e hr, hparse⟩

/-- **Expanding a text is resolving the types of its tree.** If an expression is expanded, what
comes out is read as the expression with its types resolved, provided that the text and the
definitions are expressions without comments and without quoted references to defined names. -/
theorem parse_expand {expression : String} {e : Expr} {x : Expansion}
    (he : Expr.parse expression = .ok e) (hplain : t.Plain expression) (ht : t.Readable)
    (hx : t.expand expression = .ok x) :
    ∃ r, t.Resolves e r ∧ (∀ s, t.Resolves e s → s = r) ∧ Expr.parse x.text = .ok r := by
  rw [expand] at hx
  cases hs : t.settle t.maxPasses 0 .empty expression with
  | none => rw [hs] at hx; cases hx
  | some y =>
    rw [hs] at hx
    cases hx
    obtain ⟨r, hr, hparse⟩ := exists_resolved_of_settle ht he hplain hs
    exact ⟨r, hr, resolves_unique hr, hparse⟩

/-- Whether a table is readable can be checked on its entries. -/
theorem readable_of_entries
    (h : ∀ e ∈ t.definitions.entries, (Expr.parse e.2).toOption.isSome ∧ t.Plain e.2) :
    t.Readable where
  parses hd := by
    obtain ⟨d, he⟩ := Option.isSome_iff_exists.mp (h _ (Dictionary.mem_of_find? hd)).1
    cases hparse : Expr.parse _ with
    | error _ => rw [hparse] at he; cases he
    | ok d => exact ⟨d, rfl⟩
  plain hd := (h _ (Dictionary.mem_of_find? hd)).2

/-- A definition inside a definition, in front of a multiplier, beside a name without a definition
and a quoted reference to it. -/
theorem parse_expand_nested :
    ∃ (t : TypeTable) (x : Expansion), t.Readable ∧ t.Plain "<side> && <other>* \x22<other>\x22" ∧
      t.expand "<side> && <other>* \x22<other>\x22" = .ok x ∧
      x.text = "[[1 <edge-x>?]# | auto] && <other>* \x22<other>\x22" ∧
      ∃ r, Expr.parse "<side> && <other>* \x22<other>\x22" = .ok
          (.combined .allOf [.leaf (.typeRef "side"), .combined .juxtaposition
            [.multiplied (.leaf (.typeRef "other")) .zeroOrMore, .leaf (.quoted "<other>")]]) ∧
        t.Resolves (.combined .allOf [.leaf (.typeRef "side"), .combined .juxtaposition
            [.multiplied (.leaf (.typeRef "other")) .zeroOrMore, .leaf (.quoted "<other>")]]) r ∧
        Expr.parse x.text = .ok r := by
  let t : TypeTable := .ofList [("side", "<edge># | auto"), ("edge", "1 <edge-x>?")]
  let x : Expansion :=
    ⟨"[[1 <edge-x>?]# | auto] && <other>* \x22<other>\x22", ["edge-x", "other"], 2⟩
  have ht : t.Readable := readable_of_entries (by decide +kernel)
  have he : Expr.parse "<side> && <other>* \x22<other>\x22" = .ok
      (.combined .allOf [.leaf (.typeRef "side"), .combined .juxtaposition
        [.multiplied (.leaf (.typeRef "other")) .zeroOrMore, .leaf (.quoted "<other>")]]) := by
    decide +kernel
  have hplain : t.Plain "<side> && <other>* \x22<other>\x22" := by decide +kernel
  have hx : t.expand "<side> && <other>* \x22<other>\x22" = .ok x := by decide +kernel
  obtain ⟨r, hr, -, hparse⟩ := parse_expand he hplain ht hx
  exact ⟨t, x, ht, hplain, hx, rfl, r, he, hr, hparse⟩

end TypeTable

end ValueGrammar
