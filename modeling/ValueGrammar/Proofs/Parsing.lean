import Mathlib.Control.Monad.Basic
import ValueGrammar.Proofs.Passing
import ValueGrammar.Proofs.Scanning

/-!
# The parser reads exactly its grammar

`Reads k steps limit` holds if the steps of a parser read category `k`: every expression that they
answer is derived by the tokens that they pass, and whatever `limit` tokens or fewer derive they
answer, provided that the token after ends it. Each function of the parser reads its category if
the one below it does; the bound on the nesting is what carries the induction.

Headlines:
* **`Reads.term`**, **`Reads.factor`**, **`Reads.level`**: one step each.
* **`reads_expressionWithin`**: within any bound, the parser reads whole expressions.
* **`whole_ok_iff`**: the parser accepts exactly what is derived up to the end of the input.
* **`spells_unique`**: the same tokens spell no two expressions.
* **`parse_iff_spells`**: an input is parsed exactly if its tokens spell an expression, as that one.
-/

namespace ValueGrammar

namespace Parser

variable {p q : Parser} {inner operand : ParserM Expr} {e : Expr} {bound limit : Nat}

/-- **Reading a category**: every answer is derived by the tokens passed, and what is derived by
at most `limit` tokens is answered. -/
structure Reads (k : Category) (steps : ParserM Expr) (limit : Nat) : Prop where
  sound {p q : Parser} {e : Expr} (h : steps.run p = .ok e q) :
    ∃ ts, Passes p ts q ∧ Derives k ts e
  complete {p q : Parser} {ts : List Token} {e : Expr} (hd : Derives k ts e)
    (hl : ts.length ≤ limit) (hp : Passes p ts q) (hq : k.endsBefore q.current = true) :
    steps.run p = .ok e q

/-! ## Terms -/

theorem consume_pure_ok_iff {t : Token} {a : Expr} (hp : p.current = t) (ht : t ≠ .endOfInput) :
    (do consume; return a : ParserM Expr).run p = .ok e q ↔ e = a ∧ Passes p [t] q := by
  simp only [run_bind_eq_ok_iff, run_pure_eq_ok_iff, consume_ok_iff hp ht]
  constructor
  · rintro ⟨_, _, h, rfl, rfl⟩
    exact ⟨rfl, h⟩
  · rintro ⟨rfl, h⟩
    exact ⟨(), q, h, rfl, rfl⟩

theorem term_sound (hi : Reads (.level .anyOf) inner limit) (h : (term inner).run p = .ok e q) :
    ∃ ts, Passes p ts q ∧ Derives .term ts e := by
  rw [term, run_get_bind] at h
  split at h
  case h_1 name hp =>
    obtain ⟨rfl, hp⟩ := (consume_pure_ok_iff hp (by simp)).mp h
    exact ⟨_, hp, .identifier name⟩
  case h_2 text hp =>
    obtain ⟨rfl, hp⟩ := (consume_pure_ok_iff hp (by simp)).mp h
    exact ⟨_, hp, .number text⟩
  case h_3 name hp =>
    obtain ⟨rfl, hp⟩ := (consume_pure_ok_iff hp (by simp)).mp h
    exact ⟨_, hp, .typeRef name⟩
  case h_4 text hp =>
    obtain ⟨rfl, hp⟩ := (consume_pure_ok_iff hp (by simp)).mp h
    exact ⟨_, hp, .quoted text⟩
  case h_5 hp =>
    obtain ⟨_, p₁, h₁, h⟩ := run_bind_eq_ok_iff.mp h
    obtain ⟨body, p₂, h₂, h⟩ := run_bind_eq_ok_iff.mp h
    obtain ⟨_, p₃, h₃, h⟩ := run_bind_eq_ok_iff.mp h
    obtain ⟨rfl, rfl⟩ := run_pure_eq_ok_iff.mp h
    obtain ⟨ts, hts, hd⟩ := hi.sound h₂
    have hopen := (consume_ok_iff hp (by simp)).mp h₁
    have hclose := (expect_ok_iff (by simp)).mp h₃
    refine ⟨.openBracket :: (ts ++ [.closeBracket]), ?_, .group hd⟩
    exact passes_cons_iff.mpr ⟨p₁, hopen, passes_append_iff.mpr ⟨p₂, hts, hclose⟩⟩
  case h_6 => exact absurd h run_unexpected_ne_ok

theorem term_complete (hi : Reads (.level .anyOf) inner limit) {ts : List Token}
    (hd : Derives .term ts e) (hl : ts.length ≤ limit + 1) (hp : Passes p ts q) :
    (term inner).run p = .ok e q := by
  rw [term, run_get_bind]
  cases hd with
  | identifier | number | typeRef | quoted =>
    have hc := current_of_passes hp
    rw [hc]
    exact (consume_pure_ok_iff hc (by simp)).mpr ⟨rfl, hp⟩
  | @group ts body hd =>
    have hc := current_of_passes hp
    obtain ⟨p₁, hp₁, hp⟩ := passes_cons_iff.mp hp
    obtain ⟨p₂, hp₂, hp₃⟩ := passes_append_iff.mp hp
    simp only [List.length_cons, List.length_append, List.length_nil] at hl
    -- the brackets make the body shorter by two tokens, so it stays within the limit
    have hbody : inner.run p₁ = .ok body p₂ :=
      hi.complete hd (by omega) hp₂ (by rw [current_of_passes hp₃]; decide)
    rw [hc]
    refine run_bind_eq_ok_iff.mpr ⟨(), p₁, (consume_ok_iff hc (by simp)).mpr hp₁, ?_⟩
    refine run_bind_eq_ok_iff.mpr ⟨body, p₂, hbody, ?_⟩
    refine run_bind_eq_ok_iff.mpr ⟨(), q, (expect_ok_iff (by simp)).mpr hp₃, ?_⟩
    exact run_pure_eq_ok_iff.mpr ⟨rfl, rfl⟩

/-- Terms are read if expressions are read in brackets. -/
theorem Reads.term (hi : Reads (.level .anyOf) inner limit) :
    Reads .term (term inner) (limit + 1) :=
  ⟨fun h => term_sound hi h, fun hd hl hp _ => term_complete hi hd hl hp⟩

/-! ## Factors -/

/-- Factors are read if terms are. -/
theorem Reads.factor (ht : Reads .term (Parser.term inner) limit) :
    Reads .factor (factor inner) limit where
  sound {p q e} h := by
    obtain ⟨body, p₁, h₁, h⟩ := run_bind_eq_ok_iff.mp h
    obtain ⟨m, p₂, h₂, h⟩ := run_bind_eq_ok_iff.mp h
    obtain ⟨ts, hts, hd⟩ := ht.sound h₁
    cases m with
    | none =>
      obtain ⟨rfl, rfl⟩ := run_pure_eq_ok_iff.mp h
      obtain ⟨-, rfl⟩ := multiplier?_none_iff.mp h₂
      exact ⟨ts, hts, .bare hd⟩
    | some m =>
      obtain ⟨rfl, rfl⟩ := run_pure_eq_ok_iff.mp h
      obtain ⟨us, hus, hm⟩ := multiplier?_some_iff.mp h₂
      exact ⟨ts ++ us, passes_append_iff.mpr ⟨p₁, hts, hus⟩, .multiplied hd hm⟩
  complete {p q ts e} hd hl hp hq := by
    cases hd with
    | bare hd =>
      have hm : multiplier?.run q = .ok none q :=
        multiplier?_none_iff.mpr ⟨by simpa [Category.endsBefore] using hq, rfl⟩
      refine run_bind_eq_ok_iff.mpr ⟨e, q, ht.complete hd hl hp rfl, ?_⟩
      refine run_bind_eq_ok_iff.mpr ⟨none, q, hm, ?_⟩
      exact run_pure_eq_ok_iff.mpr ⟨rfl, rfl⟩
    | @multiplied ts us body m hd hm =>
      obtain ⟨p₁, hp₁, hp₂⟩ := passes_append_iff.mp hp
      rw [List.length_append] at hl
      refine run_bind_eq_ok_iff.mpr ⟨body, p₁, ht.complete hd (by omega) hp₁ rfl, ?_⟩
      refine run_bind_eq_ok_iff.mpr ⟨some m, q, multiplier?_some_iff.mpr ⟨us, hp₂, hm⟩, ?_⟩
      exact run_pure_eq_ok_iff.mpr ⟨rfl, rfl⟩

/-! ## Levels -/

variable {c : Combinator}

theorem continues_true_iff :
    (continues c).run p = .ok true q ↔
      c.continuedBy p.current = true ∧ Passes p c.separatorTokens q := by
  have separated {t : Token} (ht : t ≠ .endOfInput) : (skip t).run p = .ok true q ↔
      decide (p.current = t) = true ∧ Passes p [t] q := by
    rw [skip_true_iff ht, decide_eq_true_eq]
    exact ⟨fun h => ⟨current_of_passes h, h⟩, fun h => h.2⟩
  cases c with
  | juxtaposition =>
    rw [continues, run_get_bind, run_pure_eq_ok_iff, Combinator.separatorTokens, passes_nil_iff]
    exact and_congr_left' eq_comm
  | allOf | oneOf | anyOf => exact separated (by simp)

theorem continues_false_iff :
    (continues c).run p = .ok false q ↔ c.continuedBy p.current = false ∧ q = p := by
  have separated {t : Token} : (skip t).run p = .ok false q ↔
      decide (p.current = t) = false ∧ q = p := by
    rw [skip_false_iff, decide_eq_false_iff_not]
  cases c with
  | juxtaposition =>
    rw [continues, run_get_bind, run_pure_eq_ok_iff]
    exact and_congr_left' eq_comm
  | allOf | oneOf | anyOf => exact separated

/-- **Passing operands**: the tokens passed are those of the operands, with the separators of the
combinator between them. -/
def PassesOperands (c : Combinator) (p : Parser) (es : List Expr) (q : Parser) : Prop :=
  ∃ os : List (List Token × Expr), os ≠ [] ∧ os.map Prod.snd = es ∧
    Passes p (c.separatorTokens.intercalate (os.map Prod.fst)) q ∧
    ∀ o ∈ os, Derives c.operandCategory o.1 o.2

theorem passesOperands_singleton {ts : List Token} (h : Passes p ts q)
    (hd : Derives c.operandCategory ts e) : PassesOperands c p [e] q := by
  refine ⟨[(ts, e)], by simp, rfl, ?_, List.forall_mem_singleton.mpr hd⟩
  rw [List.map_singleton, List.intercalate_singleton]
  exact h

theorem passesOperands_cons {p₁ p₂ : Parser} {ts : List Token} {es : List Expr}
    (h : Passes p ts p₁) (hd : Derives c.operandCategory ts e)
    (hsep : Passes p₁ c.separatorTokens p₂) (hes : PassesOperands c p₂ es q) :
    PassesOperands c p (e :: es) q := by
  obtain ⟨os, hne, rfl, hos, hds⟩ := hes
  obtain ⟨o, os, rfl⟩ := List.exists_cons_of_ne_nil hne
  refine ⟨(ts, e) :: o :: os, by simp, rfl, ?_, List.forall_mem_cons.mpr ⟨hd, hds⟩⟩
  rw [List.map_cons, List.map_cons, List.intercalate_cons_cons, List.append_assoc]
  exact passes_append_iff.mpr ⟨p₁, h, passes_append_iff.mpr ⟨p₂, hsep, hos⟩⟩

/-- Operands that are read have been passed. -/
theorem operands_sound (ho : Reads c.operandCategory operand limit) {es : List Expr}
    (h : (operands c operand bound).run p = .ok es q) : PassesOperands c p es q := by
  induction bound generalizing p es with
  | zero =>
    obtain ⟨e, p₁, h₁, h⟩ := run_bind_eq_ok_iff.mp h
    obtain ⟨rfl, rfl⟩ := run_pure_eq_ok_iff.mp h
    obtain ⟨ts, hts, hd⟩ := ho.sound h₁
    exact passesOperands_singleton hts hd
  | succ bound ih =>
    obtain ⟨e, p₁, h₁, h⟩ := run_bind_eq_ok_iff.mp h
    obtain ⟨more, p₂, h₂, h⟩ := run_bind_eq_ok_iff.mp h
    obtain ⟨ts, hts, hd⟩ := ho.sound h₁
    cases more with
    | false =>
      obtain ⟨rfl, rfl⟩ := run_pure_eq_ok_iff.mp h
      obtain ⟨-, rfl⟩ := continues_false_iff.mp h₂
      exact passesOperands_singleton hts hd
    | true =>
      obtain ⟨es, p₃, h₃, h⟩ := run_bind_eq_ok_iff.mp h
      obtain ⟨rfl, rfl⟩ := run_pure_eq_ok_iff.mp h
      exact passesOperands_cons hts hd (continues_true_iff.mp h₂).2 (ih h₃)

/-- An operand that is passed after a separator shows that the operands go on. -/
theorem continuedBy_of_passes {ts us : List Token} (hd : Derives c.operandCategory ts e)
    (h : Passes p (c.separatorTokens ++ (ts ++ us)) q) : c.continuedBy p.current = true := by
  cases c with
  | juxtaposition =>
    obtain ⟨t, rest, rfl, ht⟩ := exists_startsTerm hd
    rw [current_of_passes h]
    exact ht
  | allOf | oneOf | anyOf =>
    rw [current_of_passes h]
    rfl

/-- Operands that stand one after another between separators are read. -/
theorem operands_complete (ho : Reads c.operandCategory operand limit)
    {os : List (List Token × Expr)} (hne : os ≠ []) (hb : os.length ≤ bound + 1)
    (hds : ∀ o ∈ os, Derives c.operandCategory o.1 o.2) (hl : ∀ o ∈ os, o.1.length ≤ limit)
    (hp : Passes p (c.separatorTokens.intercalate (os.map Prod.fst)) q)
    (hq : (Category.level c).endsBefore q.current = true) :
    (operands c operand bound).run p = .ok (os.map Prod.snd) q := by
  rw [endsBefore_level, Bool.and_eq_true, Bool.not_eq_true'] at hq
  obtain ⟨hends, hcont⟩ := hq
  -- each operand uses up one of the bound, so the bound goes down along the list
  induction os generalizing bound p with
  | nil => exact absurd rfl hne
  | cons o os ih =>
    obtain ⟨hd, hds⟩ := List.forall_mem_cons.mp hds
    obtain ⟨hlo, hl⟩ := List.forall_mem_cons.mp hl
    cases os with
    | nil =>
      have hrun : operand.run p = .ok o.2 q := ho.complete hd hlo (by simpa using hp) hends
      cases bound with
      | zero => exact run_bind_eq_ok_iff.mpr ⟨o.2, q, hrun, run_pure_eq_ok_iff.mpr ⟨rfl, rfl⟩⟩
      | succ bound =>
        refine run_bind_eq_ok_iff.mpr ⟨o.2, q, hrun, ?_⟩
        refine run_bind_eq_ok_iff.mpr ⟨false, q, continues_false_iff.mpr ⟨hcont, rfl⟩, ?_⟩
        exact run_pure_eq_ok_iff.mpr ⟨rfl, rfl⟩
    | cons o' os =>
      rw [List.map_cons, List.map_cons, List.intercalate_cons_cons, List.append_assoc] at hp
      obtain ⟨p₁, hp₁, hp⟩ := passes_append_iff.mp hp
      have hgo : c.continuedBy p₁.current = true := by
        obtain ⟨us, hus⟩ := exists_intercalate_cons c.separatorTokens o'.1 (os.map Prod.fst)
        rw [hus] at hp
        exact continuedBy_of_passes (hds o' List.mem_cons_self) hp
      obtain ⟨p₂, hp₂, hp₃⟩ := passes_append_iff.mp hp
      have hrun : operand.run p = .ok o.2 p₁ :=
        ho.complete hd hlo hp₁ (endsBefore_of_continuedBy hgo)
      cases bound with
      | zero => exact absurd hb (by simp)
      | succ bound =>
        have hrest := ih (by simp) (Nat.le_of_succ_le_succ hb) hds hl hp₃
        refine run_bind_eq_ok_iff.mpr ⟨o.2, p₁, hrun, ?_⟩
        refine run_bind_eq_ok_iff.mpr ⟨true, p₂, continues_true_iff.mpr ⟨hgo, hp₂⟩, ?_⟩
        refine run_bind_eq_ok_iff.mpr ⟨_, q, hrest, ?_⟩
        exact run_pure_eq_ok_iff.mpr ⟨rfl, rfl⟩

/-- A level is read if its operands are. -/
theorem Reads.level (ho : Reads c.operandCategory operand (bound + 1)) :
    Reads (.level c) (level c bound operand) (bound + 1) where
  sound {p q e} h := by
    obtain ⟨es, p₁, h₁, h⟩ := run_bind_eq_ok_iff.mp h
    obtain ⟨rfl, rfl⟩ := run_pure_eq_ok_iff.mp h
    obtain ⟨os, hne, rfl, hos, hds⟩ := operands_sound ho h₁
    match os, hne with
    | [o], _ =>
      have hd := hds o List.mem_cons_self
      refine ⟨o.1, by simpa using hos, .single ?_⟩
      rw [List.map_singleton, Combinator.collect_singleton (splice_of_derives hd)]
      exact hd
    | o :: o' :: os, _ =>
      have hs : ∀ e ∈ (o :: o' :: os).map Prod.snd, c.splice e = [e] :=
        List.forall_mem_map.mpr fun o ho => splice_of_derives (hds o ho)
      refine ⟨_, hos, ?_⟩
      rw [collect_of_splice (by simp) hs]
      exact .several (by simp) hds
  complete {p q ts e} hd hl hp hq := by
    cases hd with
    | single hd =>
      have hds : ∀ o ∈ [(ts, e)], Derives c.operandCategory o.1 o.2 :=
        List.forall_mem_singleton.mpr hd
      have hrun : (operands c operand bound).run p = .ok [e] q :=
        operands_complete ho (by simp) (by simp) hds (by simpa using hl) (by simpa using hp) hq
      refine run_bind_eq_ok_iff.mpr ⟨[e], q, hrun, run_pure_eq_ok_iff.mpr ⟨?_, rfl⟩⟩
      exact (Combinator.collect_singleton (splice_of_derives hd)).symm
    | @several _ os h2 hds =>
      have hs : ∀ e ∈ os.map Prod.snd, c.splice e = [e] :=
        List.forall_mem_map.mpr fun o ho => splice_of_derives (hds o ho)
      have hcard : (os.map Prod.fst).length ≤ bound + 1 :=
        Nat.le_trans (card_le_length_intercalate
          (List.forall_mem_map.mpr fun o ho => ne_nil_of_derives (hds o ho))) hl
      have hlen : ∀ o ∈ os, o.1.length ≤ bound + 1 := fun o ho =>
        Nat.le_trans (length_le_length_intercalate (List.mem_map_of_mem ho)) hl
      have hrun := operands_complete ho (by rintro rfl; exact absurd h2 (by simp))
        (by simpa using hcard) hds hlen hp hq
      refine run_bind_eq_ok_iff.mpr ⟨_, q, hrun, run_pure_eq_ok_iff.mpr ⟨?_, rfl⟩⟩
      exact (collect_of_splice (by simpa using h2) hs).symm

/-! ## Whole expressions -/

/-- Within any bound, the parser reads whole expressions. -/
theorem reads_expressionWithin : ∀ bound, Reads (.level .anyOf) (expressionWithin bound) bound
  | 0 =>
    { sound := fun h => absurd h run_unexpected_ne_ok
      complete := fun hd hl _ _ =>
        absurd (List.length_eq_zero_iff.mp (Nat.le_zero.mp hl)) (ne_nil_of_derives hd) }
  | bound + 1 =>
    .level (c := .anyOf) <| .level (c := .oneOf) <| .level (c := .allOf) <|
      .level (c := .juxtaposition) <| .factor <| .term <| reads_expressionWithin bound

theorem run_expression : expression.run p = (expressionWithin (p.remaining + 1)).run p := by
  rw [expression, run_get_bind]

/-- **Exactness of the parser**: it accepts exactly what is derived up to the end of the input. -/
theorem whole_ok_iff :
    whole.run p = .ok e q ↔ ∃ ts, Spells ts e ∧ Passes p ts q ∧ q.current = .endOfInput := by
  rw [whole, run_bind_eq_ok_iff]
  simp only [run_expression]
  have hreads := reads_expressionWithin (p.remaining + 1)
  constructor
  · rintro ⟨e, p₁, h, hend⟩
    rw [run_get_bind] at hend
    split at hend
    · rename_i hcur
      obtain ⟨rfl, rfl⟩ := run_pure_eq_ok_iff.mp hend
      obtain ⟨ts, hp, hd⟩ := hreads.sound h
      exact ⟨ts, hd, hp, hcur⟩
    · exact absurd hend run_unexpected_ne_ok
  · rintro ⟨ts, hd, hp, hcur⟩
    have hl : ts.length ≤ p.remaining + 1 := Nat.le_succ_of_le (length_le_remaining hp)
    refine ⟨e, q, hreads.complete hd hl hp (by rw [hcur]; decide), ?_⟩
    rw [run_get_bind, if_pos hcur]
    exact run_pure_eq_ok_iff.mpr ⟨rfl, rfl⟩

/-! ## From the first token to the end of the input -/

theorem passes_to_end_iff_advance {ts : List Token} (hp : p.current ≠ .endOfInput) :
    (∃ q, Passes p ts q ∧ q.current = .endOfInput) ↔
      ∃ p' us, advance.run p = .ok () p' ∧ ts = p.current :: us ∧
        ∃ q, Passes p' us q ∧ q.current = .endOfInput := by
  constructor
  · rintro ⟨q, h, hq⟩
    cases h with
    | nil => exact absurd hq hp
    | @cons _ p' _ _ us hc ht ha h => exact ⟨p', us, ha, by rw [hc], q, h, hq⟩
  · rintro ⟨p', us, ha, rfl, q, h, hq⟩
    exact ⟨q, .cons rfl hp ha h, hq⟩

/-- The tokens passed up to the end of the input are the current one and all that the lexer has
left. -/
theorem passes_to_end_iff {ts : List Token} (hp : p.current ≠ .endOfInput)
    (hall : p.lexer.upcoming.All (· ≠ .endOfInput)) :
    (∃ q, Passes p ts q ∧ q.current = .endOfInput) ↔
      ∃ us, p.lexer.tokens = .ok us ∧ ts = p.current :: us := by
  obtain ⟨⟨input, offset, upcoming⟩, current⟩ := p
  induction upcoming generalizing offset current ts with
  | token t offset' rest ih =>
    rw [passes_to_end_iff_advance hp, advance_of_token rfl]
    have ih' : ∀ us, (∃ q, Passes ⟨⟨input, offset', rest⟩, t⟩ us q ∧ q.current = .endOfInput) ↔
        ∃ vs, rest.tokens = .ok vs ∧ us = t :: vs := fun us => ih t offset' hall.1 hall.2
    constructor
    · rintro ⟨_, us, ⟨⟩, rfl, h⟩
      obtain ⟨vs, hvs, rfl⟩ := (ih' us).mp h
      exact ⟨t :: vs, Scan.tokens_token_eq_ok_iff.mpr ⟨vs, hvs, rfl⟩, rfl⟩
    · rintro ⟨us, hus, rfl⟩
      obtain ⟨vs, hvs, rfl⟩ := Scan.tokens_token_eq_ok_iff.mp hus
      exact ⟨_, t :: vs, rfl, rfl, (ih' _).mpr ⟨vs, hvs, rfl⟩⟩
  | finished length =>
    rw [passes_to_end_iff_advance hp, advance_of_finished rfl]
    constructor
    · rintro ⟨_, us, ⟨⟩, rfl, q, h, -⟩
      exact ⟨[], rfl, by rw [eq_nil_of_passes h rfl]⟩
    · rintro ⟨us, ⟨⟩, rfl⟩
      exact ⟨_, [], rfl, rfl, _, .nil _, rfl⟩
  | fault e =>
    rw [passes_to_end_iff_advance hp, advance_of_fault rfl]
    constructor
    · rintro ⟨_, us, ⟨⟩, -⟩
    · rintro ⟨us, ⟨⟩, -⟩

theorem perform_ok_iff {α : Type} {steps : ParserM α} {a : α} :
    (p.perform steps).1 = .ok a ↔ ∃ q, steps.run p = .ok a q := by
  unfold perform
  cases steps.run p with
  | ok b q => simp
  | error e q => simp

theorem perform_whole_ok_iff :
    (p.perform whole).1 = .ok e ↔
      ∃ ts, Spells ts e ∧ ∃ q, Passes p ts q ∧ q.current = .endOfInput := by
  rw [perform_ok_iff]
  constructor
  · rintro ⟨q, h⟩
    obtain ⟨ts, hd, hp⟩ := whole_ok_iff.mp h
    exact ⟨ts, hd, q, hp⟩
  · rintro ⟨ts, hd, q, hp⟩
    exact ⟨q, whole_ok_iff.mpr ⟨ts, hd, hp⟩⟩

/-- A parser at a token that begins a scan reads what that token and those left spell. -/
theorem perform_whole_ok_iff_tokens (hp : p.current ≠ .endOfInput)
    (hall : p.lexer.upcoming.All (· ≠ .endOfInput)) :
    (p.perform whole).1 = .ok e ↔
      ∃ us, p.lexer.tokens = .ok us ∧ Spells (p.current :: us) e := by
  simp only [perform_whole_ok_iff, passes_to_end_iff hp hall]
  constructor
  · rintro ⟨_, hd, us, hus, rfl⟩
    exact ⟨us, hus, hd⟩
  · rintro ⟨us, hus, hd⟩
    exact ⟨_, hd, us, hus, rfl⟩

theorem perform_whole_ne_ok (hp : p.current = .endOfInput) : (p.perform whole).1 ≠ .ok e := by
  intro h
  obtain ⟨ts, hd, q, hts, -⟩ := perform_whole_ok_iff.mp h
  exact ne_nil_of_derives hd (eq_nil_of_passes hts hp)

end Parser

/-! ## Ambiguity -/

/-- The scan that hands out given tokens. -/
def Scan.ofTokens : List Token → Scan
  | [] => .finished 0
  | t :: ts => .token t 0 (ofTokens ts)

theorem tokens_ofTokens (ts : List Token) : (Scan.ofTokens ts).tokens = .ok ts := by
  induction ts with
  | nil => rfl
  | cons t ts ih =>
    rw [Scan.ofTokens, Scan.tokens, ih]
    rfl

theorem all_ofTokens {P : Token → Prop} {ts : List Token} (h : ∀ t ∈ ts, P t) :
    (Scan.ofTokens ts).All P := by
  induction ts with
  | nil => trivial
  | cons t ts ih =>
    obtain ⟨ht, hts⟩ := List.forall_mem_cons.mp h
    exact ⟨ht, ih hts⟩

/-- The same tokens spell no two expressions: a parser that is handed them answers both. -/
theorem spells_unique {ts : List Token} {d e : Expr} (hd : Spells ts d) (he : Spells ts e) :
    d = e := by
  have hall := ne_endOfInput_of_derives hd
  obtain ⟨t, rest, rfl, -⟩ := exists_startsTerm hd
  obtain ⟨ht, hrest⟩ := List.forall_mem_cons.mp hall
  -- the parser is a function, so two derivations of what it is handed must agree
  let p : Parser := ⟨⟨"", 0, Scan.ofTokens rest⟩, t⟩
  have answers {e : Expr} (he : Spells (t :: rest) e) : (p.perform Parser.whole).1 = .ok e :=
    (Parser.perform_whole_ok_iff_tokens ht (all_ofTokens hrest)).mpr
      ⟨rest, tokens_ofTokens rest, he⟩
  have h := (answers hd).symm.trans (answers he)
  cases h
  rfl

/-! ## Inputs -/

/-- An input is parsed as an expression exactly if its tokens spell that expression. -/
theorem parse_ok_iff {input : String} {e : Expr} :
    Expr.parse input = .ok e ↔ ∃ ts, tokenize input = .ok ts ∧ Spells ts e := by
  have hall := scan_ne_endOfInput input
  unfold Expr.parse tokenize Parser.ofInput Lexer.ofInput Parser.ofLexer Lexer.next
  cases hs : scan input with
  | token t offset rest =>
    rw [hs] at hall
    have h := Parser.perform_whole_ok_iff_tokens (p := ⟨⟨input, offset, rest⟩, t⟩) (e := e)
      hall.1 hall.2
    refine h.trans ?_
    constructor
    · rintro ⟨us, hus, hd⟩
      exact ⟨t :: us, Scan.tokens_token_eq_ok_iff.mpr ⟨us, hus, rfl⟩, hd⟩
    · rintro ⟨ts, hts, hd⟩
      obtain ⟨us, hus, rfl⟩ := Scan.tokens_token_eq_ok_iff.mp hts
      exact ⟨us, hus, hd⟩
  | finished length =>
    refine ⟨fun h => absurd h (Parser.perform_whole_ne_ok rfl), ?_⟩
    rintro ⟨ts, ⟨⟩, hd⟩
    exact absurd rfl (ne_nil_of_derives hd)
  | fault err =>
    constructor
    · rintro ⟨⟩
    · rintro ⟨ts, ⟨⟩, -⟩

/-- **The parser accepts exactly its grammar** and builds the expression that the grammar dictates.
Hence inputs with the same tokens are parsed alike, whatever their blanks and comments, and no
tokens spell two expressions. -/
theorem parse_iff_spells :
    (∀ (input : String) (e : Expr),
      Expr.parse input = .ok e ↔ ∃ ts, tokenize input = .ok ts ∧ Spells ts e) ∧
    (∀ (a b : String) (ts : List Token), tokenize a = .ok ts → tokenize b = .ok ts →
      ∀ e, Expr.parse a = .ok e ↔ Expr.parse b = .ok e) ∧
    ∀ (ts : List Token) (d e : Expr), Spells ts d → Spells ts e → d = e := by
  refine ⟨fun _ _ => parse_ok_iff, fun a b ts ha hb e => ?_, fun _ _ _ => spells_unique⟩
  rw [parse_ok_iff, parse_ok_iff, ha, hb]

/-- A comment between two terms leaves the parse as it is, and the tokens spell nothing else. -/
theorem parse_iff_spells_comment :
    tokenize "a // c || d\n b*" = tokenize "a b*" ∧
    (∀ e, Expr.parse "a // c || d\n b*" = .ok e ↔ Expr.parse "a b*" = .ok e) ∧
    ∀ e, Spells [.identifier "a", .identifier "b", .star] e ↔
      e = .combined .juxtaposition
        [.leaf (.identifier "a"), .multiplied (.leaf (.identifier "b")) .zeroOrMore] := by
  have ha : tokenize "a // c || d\n b*" = .ok [.identifier "a", .identifier "b", .star] := by
    decide +kernel
  have hb : tokenize "a b*" = .ok [.identifier "a", .identifier "b", .star] := by
    decide +kernel
  have hparse : Expr.parse "a b*" = .ok (.combined .juxtaposition
      [.leaf (.identifier "a"), .multiplied (.leaf (.identifier "b")) .zeroOrMore]) := by
    decide +kernel
  obtain ⟨ts, hts, hd⟩ := (parse_iff_spells.1 _ _).mp hparse
  cases hb.symm.trans hts
  refine ⟨ha.trans hb.symm, parse_iff_spells.2.1 _ _ _ ha hb, fun e => ⟨fun he => ?_, ?_⟩⟩
  · exact parse_iff_spells.2.2 _ _ _ he hd
  · rintro rfl
    exact hd

end ValueGrammar
