import Mathlib.Logic.Basic
import ValueGrammar.Proofs.Grammar

/-!
# The tokens that a parser passes

`Passes p ts q` says that moving on from the parser `p`, one token of `ts` after the other, leads
to `q`. Every step of the parser that succeeds has passed the tokens that the grammar asks of it,
and succeeds whenever they are there.

Headlines:
* **`passes_append_iff`**: passing is passing the first part, then the second.
* **`length_le_remaining`**: no more tokens are passed than are left.
* **`multiplier?_some_iff`**, **`multiplier?_none_iff`**: a multiplier is read exactly if its tokens
  are passed, and none exactly if none begins.
-/

namespace ValueGrammar.Parser

variable {α β : Type} {p q r : Parser}

/-! ## Steps that succeed -/

theorem run_bind_eq_ok_iff {x : ParserM α} {f : α → ParserM β} {b : β} :
    (x >>= f).run p = .ok b q ↔ ∃ a p', x.run p = .ok a p' ∧ (f a).run p' = .ok b q := by
  rw [EStateM.run_bind]
  cases hx : x.run p with
  | ok a p' =>
    constructor
    · exact fun h => ⟨a, p', rfl, h⟩
    · rintro ⟨_, _, ⟨⟩, h⟩
      exact h
  | error e p' =>
    constructor
    · rintro ⟨⟩
    · rintro ⟨_, _, ⟨⟩, -⟩

theorem run_pure_eq_ok_iff {a b : α} : (pure a : ParserM α).run p = .ok b q ↔ b = a ∧ q = p := by
  rw [EStateM.run_pure]
  constructor
  · rintro ⟨⟩
    exact ⟨rfl, rfl⟩
  · rintro ⟨rfl, rfl⟩
    rfl

theorem run_fail_ne_ok {fault : ParseFault} {a : α} : (fail fault).run p ≠ .ok a q := by
  intro h
  cases h

theorem run_unexpected_ne_ok {x : Expectation} {a : α} : (unexpected x).run p ≠ .ok a q := by
  intro h
  cases h

/-- Where a move leads to does not depend on the current token. -/
theorem advance_ok_iff_of_lexer_eq (p p' : Parser) (h : p.lexer = p'.lexer) {u : Unit} :
    advance.run p = .ok u q ↔ advance.run p' = .ok u q := by
  cases hu : p.lexer.upcoming with
  | token t offset rest =>
    rw [advance_of_token hu, advance_of_token (h ▸ hu), h]
  | finished length =>
    rw [advance_of_finished hu, advance_of_finished (h ▸ hu), h]
  | fault e =>
    rw [advance_of_fault hu, advance_of_fault (h ▸ hu)]
    simp

/-! ## Passing tokens -/

/-- **Passing tokens**: moving on from the first parser past the tokens leads to the second. -/
inductive Passes : Parser → List Token → Parser → Prop
  | nil (p : Parser) : Passes p [] p
  | cons {p p' q : Parser} {t : Token} {ts : List Token} (hp : p.current = t)
      (ht : t ≠ .endOfInput) (ha : advance.run p = .ok () p') (h : Passes p' ts q) :
      Passes p (t :: ts) q

theorem passes_nil_iff : Passes p [] q ↔ q = p := by
  constructor
  · rintro ⟨⟩
    rfl
  · rintro rfl
    exact .nil q

theorem passes_singleton_iff {t : Token} :
    Passes p [t] q ↔ p.current = t ∧ t ≠ .endOfInput ∧ advance.run p = .ok () q := by
  constructor
  · intro h
    cases h with
    | cons hp ht ha h =>
      cases h
      exact ⟨hp, ht, ha⟩
  · rintro ⟨hp, ht, ha⟩
    exact .cons hp ht ha (.nil q)

theorem current_of_passes {t : Token} {ts : List Token} (h : Passes p (t :: ts) q) :
    p.current = t := by
  cases h with
  | cons hp => exact hp

/-- Passing is passing the first part, then the second. -/
theorem passes_append_iff {ts us : List Token} :
    Passes p (ts ++ us) r ↔ ∃ q, Passes p ts q ∧ Passes q us r := by
  induction ts generalizing p with
  | nil => simp [passes_nil_iff]
  | cons t ts ih =>
    constructor
    · intro h
      cases h with
      | cons hp ht ha h =>
        obtain ⟨q, h1, h2⟩ := ih.mp h
        exact ⟨q, .cons hp ht ha h1, h2⟩
    · rintro ⟨q, h1, h2⟩
      cases h1 with
      | cons hp ht ha h1 => exact .cons hp ht ha (ih.mpr ⟨q, h1, h2⟩)

theorem passes_cons_iff {t : Token} {ts : List Token} :
    Passes p (t :: ts) r ↔ ∃ q, Passes p [t] q ∧ Passes q ts r :=
  (passes_append_iff : Passes p ([t] ++ ts) r ↔ _)

/-- Nothing is passed at the end of the input. -/
theorem eq_nil_of_passes {ts : List Token} (h : Passes p ts q) (hp : p.current = .endOfInput) :
    ts = [] := by
  cases h with
  | nil => rfl
  | cons hp' ht => exact absurd (hp' ▸ hp) ht

/-- No more tokens are passed than are left. -/
theorem length_le_remaining {ts : List Token} (h : Passes p ts q) : ts.length ≤ p.remaining := by
  induction h with
  | nil => exact Nat.zero_le _
  | @cons p p' q t ts hp ht ha h ih =>
    cases hu : p.lexer.upcoming with
    | token t' offset rest =>
      rw [advance_of_token hu] at ha
      cases ha
      rw [List.length_cons, remaining, hu, Scan.length]
      exact Nat.succ_le_succ ih
    | finished length =>
      rw [advance_of_finished hu] at ha
      cases ha
      rw [eq_nil_of_passes h rfl]
      exact Nat.le_add_left 1 _
    | fault e =>
      rw [advance_of_fault hu] at ha
      cases ha

/-! ## Single tokens -/

variable {t : Token} {u : Unit}

theorem expect_ok_iff {x : Expectation} (ht : t ≠ .endOfInput) :
    (expect t x).run p = .ok u q ↔ Passes p [t] q := by
  rw [expect, run_get_bind, passes_singleton_iff]
  by_cases hp : p.current = t
  · rw [if_pos hp]
    exact ⟨fun ha => ⟨hp, ht, ha⟩, fun h => h.2.2⟩
  · rw [if_neg hp]
    exact ⟨fun h => absurd h run_unexpected_ne_ok, fun h => absurd h.1 hp⟩

theorem skip_true_iff (ht : t ≠ .endOfInput) : (skip t).run p = .ok true q ↔ Passes p [t] q := by
  rw [skip, run_get_bind, passes_singleton_iff]
  by_cases hp : p.current = t
  · simp only [if_pos hp, run_bind_eq_ok_iff, run_pure_eq_ok_iff]
    constructor
    · rintro ⟨_, _, ha, -, rfl⟩
      exact ⟨hp, ht, ha⟩
    · rintro ⟨-, -, ha⟩
      exact ⟨(), q, ha, trivial, rfl⟩
  · simp only [if_neg hp, run_pure_eq_ok_iff]
    exact ⟨fun h => absurd h.1 (by simp), fun h => absurd h.1 hp⟩

theorem skip_false_iff : (skip t).run p = .ok false q ↔ p.current ≠ t ∧ q = p := by
  rw [skip, run_get_bind]
  by_cases hp : p.current = t
  · simp only [if_pos hp, run_bind_eq_ok_iff, run_pure_eq_ok_iff]
    constructor
    · rintro ⟨_, _, -, hf, -⟩
      exact absurd hf (by simp)
    · rintro ⟨hn, -⟩
      exact absurd hp hn
  · simp only [if_neg hp, run_pure_eq_ok_iff]
    exact ⟨fun h => ⟨hp, h.2⟩, fun h => ⟨trivial, h.2⟩⟩

theorem consume_ok_iff (hp : p.current = t) (ht : t ≠ .endOfInput) :
    consume.run p = .ok u q ↔ Passes p [t] q := by
  rw [passes_singleton_iff]
  have h : consume.run p = .ok u q ↔ advance.run p = .ok () q :=
    advance_ok_iff_of_lexer_eq { p with current := .endOfInput } p rfl
  exact h.trans ⟨fun ha => ⟨hp, ht, ha⟩, fun h => h.2.2⟩

/-! ## Multipliers -/

theorem count?_eq_some_iff {text : String} {n : UInt32} :
    count? text = some n ↔ DenotesCount text n := by
  unfold count? Text.natural? DenotesCount
  by_cases hd : text.toList ≠ [] ∧ text.toList.all Char.isDigit = true
  · rw [if_pos hd, Option.bind_some]
    by_cases hn : Nat.ofDigitChars 10 text.toList 0 < UInt32.size
    · rw [dif_pos hn, Option.some_inj, ← UInt32.toNat_inj, UInt32.toNat_ofNatLT]
      exact ⟨fun h => ⟨hd.1, List.all_eq_true.mp hd.2, h⟩, fun h => h.2.2⟩
    · rw [dif_neg hn]
      refine ⟨fun h => absurd h (by simp), fun h => absurd ?_ hn⟩
      exact h.2.2 ▸ n.toNat_lt
  · rw [if_neg hd]
    exact ⟨fun h => absurd h (by simp), fun h => absurd ⟨h.1, List.all_eq_true.mpr h.2.1⟩ hd⟩

theorem count_ok_iff {n : UInt32} :
    count.run p = .ok n q ↔ ∃ text, Passes p [.number text] q ∧ DenotesCount text n := by
  rw [count, run_get_bind]
  constructor
  · intro h
    split at h
    · rename_i text hp
      split at h
      · rename_i k hk
        simp only [run_bind_eq_ok_iff, run_pure_eq_ok_iff] at h
        obtain ⟨_, _, ha, rfl, rfl⟩ := h
        exact ⟨text, passes_singleton_iff.mpr ⟨hp, by simp, ha⟩, count?_eq_some_iff.mp hk⟩
      · exact absurd h run_fail_ne_ok
    · exact absurd h run_unexpected_ne_ok
  · rintro ⟨text, hp, hn⟩
    obtain ⟨hp, -, ha⟩ := passes_singleton_iff.mp hp
    simp only [hp, count?_eq_some_iff.mpr hn, run_bind_eq_ok_iff, run_pure_eq_ok_iff]
    exact ⟨(), q, ha, trivial, rfl⟩

/-- The counts of a range end with the closing brace, the lesser one first. -/
theorem range_tail_ok_iff {least most : UInt32} {m : Multiplier} :
    (do
      if most < least then
        fail (.inverted least most)
      expect .closeBrace .closeBrace
      return Multiplier.counted least most : ParserM Multiplier).run p = .ok m q ↔
      least ≤ most ∧ m = .counted least most ∧ Passes p [.closeBrace] q := by
  by_cases hlt : most < least
  · rw [if_pos hlt]
    refine ⟨fun h => ?_, fun h => absurd h.1 (UInt32.not_le.mpr hlt)⟩
    obtain ⟨_, _, h, -⟩ := run_bind_eq_ok_iff.mp h
    exact absurd h run_fail_ne_ok
  · rw [if_neg hlt]
    simp only [run_bind_eq_ok_iff, run_pure_eq_ok_iff, expect_ok_iff (t := .closeBrace) (by simp)]
    constructor
    · rintro ⟨_, _, hp, rfl, rfl⟩
      exact ⟨UInt32.not_lt.mp hlt, rfl, hp⟩
    · rintro ⟨-, rfl, hp⟩
      exact ⟨(), q, hp, rfl, rfl⟩

/-- A range is read exactly if its tokens after the opening brace are passed. -/
theorem range_ok_iff {m : Multiplier} :
    range.run p = .ok m q ↔ ∃ us, Passes p us q ∧ Suffix (.openBrace :: us) m := by
  rw [range, run_bind_eq_ok_iff]
  constructor
  · rintro ⟨least, p₁, h₁, h⟩
    obtain ⟨low, hp₁, hl⟩ := count_ok_iff.mp h₁
    obtain ⟨comma, p₂, h₂, h⟩ := run_bind_eq_ok_iff.mp h
    cases comma with
    | true =>
      obtain ⟨most, p₃, h₃, h⟩ := run_bind_eq_ok_iff.mp h
      obtain ⟨high, hp₃, hm⟩ := count_ok_iff.mp h₃
      obtain ⟨hle, rfl, hp₄⟩ := range_tail_ok_iff.mp h
      have hp₂ := (skip_true_iff (by simp)).mp h₂
      refine ⟨[.number low, .comma, .number high, .closeBrace], ?_, .between hl hm hle⟩
      exact passes_cons_iff.mpr ⟨p₁, hp₁, passes_cons_iff.mpr ⟨p₂, hp₂,
        passes_cons_iff.mpr ⟨p₃, hp₃, hp₄⟩⟩⟩
    | false =>
      obtain ⟨most, p₃, h₃, h⟩ := run_bind_eq_ok_iff.mp h
      obtain ⟨rfl, rfl⟩ := run_pure_eq_ok_iff.mp h₃
      obtain ⟨-, rfl, hp₄⟩ := range_tail_ok_iff.mp h
      obtain ⟨-, rfl⟩ := skip_false_iff.mp h₂
      exact ⟨[.number low, .closeBrace], passes_cons_iff.mpr ⟨_, hp₁, hp₄⟩, .exactly hl⟩
  · rintro ⟨us, hp, hs⟩
    cases hs with
    | @exactly text n hn =>
      obtain ⟨p₁, hp₁, hp₂⟩ := passes_cons_iff.mp hp
      have hc : p₁.current = .closeBrace := current_of_passes hp₂
      refine ⟨n, p₁, count_ok_iff.mpr ⟨text, hp₁, hn⟩, ?_⟩
      refine run_bind_eq_ok_iff.mpr ⟨false, p₁, skip_false_iff.mpr ⟨by simp [hc], rfl⟩, ?_⟩
      refine run_bind_eq_ok_iff.mpr ⟨n, p₁, run_pure_eq_ok_iff.mpr ⟨rfl, rfl⟩, ?_⟩
      exact range_tail_ok_iff.mpr ⟨UInt32.le_refl n, rfl, hp₂⟩
    | @between low high least most hl hm hle =>
      obtain ⟨p₁, hp₁, hp⟩ := passes_cons_iff.mp hp
      obtain ⟨p₂, hp₂, hp⟩ := passes_cons_iff.mp hp
      obtain ⟨p₃, hp₃, hp₄⟩ := passes_cons_iff.mp hp
      refine ⟨least, p₁, count_ok_iff.mpr ⟨low, hp₁, hl⟩, ?_⟩
      refine run_bind_eq_ok_iff.mpr ⟨true, p₂, (skip_true_iff (by simp)).mpr hp₂, ?_⟩
      refine run_bind_eq_ok_iff.mpr ⟨most, p₃, count_ok_iff.mpr ⟨high, hp₃, hm⟩, ?_⟩
      exact range_tail_ok_iff.mpr ⟨hle, rfl, hp₄⟩

/-- A multiplier is read exactly if its tokens are passed. -/
theorem multiplier?_some_iff {m : Multiplier} :
    multiplier?.run p = .ok (some m) q ↔ ∃ us, Passes p us q ∧ Suffix us m := by
  rw [multiplier?, run_get_bind]
  constructor
  · intro h
    split at h
    case h_1 hp | h_2 hp | h_3 hp | h_4 hp =>
      simp only [run_bind_eq_ok_iff, run_pure_eq_ok_iff] at h
      obtain ⟨_, _, ha, hm, rfl⟩ := h
      cases hm
      exact ⟨_, passes_singleton_iff.mpr ⟨hp, by simp, ha⟩, by constructor⟩
    case h_5 hp =>
      obtain ⟨_, p₁, ha, h⟩ := run_bind_eq_ok_iff.mp h
      obtain ⟨m', p₂, hr, h⟩ := run_bind_eq_ok_iff.mp h
      obtain ⟨hm, rfl⟩ := run_pure_eq_ok_iff.mp h
      cases hm
      obtain ⟨us, hus, hs⟩ := range_ok_iff.mp hr
      exact ⟨.openBrace :: us, .cons hp (by simp) ha hus, hs⟩
    case h_6 =>
      obtain ⟨hm, -⟩ := run_pure_eq_ok_iff.mp h
      cases hm
  · rintro ⟨us, hp, hs⟩
    cases hs with
    | optional | zeroOrMore | oneOrMore | commaSeparated =>
      obtain ⟨hp, -, ha⟩ := passes_singleton_iff.mp hp
      simp only [hp, run_bind_eq_ok_iff, run_pure_eq_ok_iff]
      exact ⟨(), q, ha, trivial, rfl⟩
    | exactly hn =>
      obtain ⟨p₁, hp₁, hp'⟩ := passes_cons_iff.mp hp
      obtain ⟨hp₁, -, ha⟩ := passes_singleton_iff.mp hp₁
      simp only [hp₁, run_bind_eq_ok_iff, run_pure_eq_ok_iff]
      exact ⟨(), p₁, ha, _, q, range_ok_iff.mpr ⟨_, hp', .exactly hn⟩, rfl, rfl⟩
    | between hl hm hle =>
      obtain ⟨p₁, hp₁, hp'⟩ := passes_cons_iff.mp hp
      obtain ⟨hp₁, -, ha⟩ := passes_singleton_iff.mp hp₁
      simp only [hp₁, run_bind_eq_ok_iff, run_pure_eq_ok_iff]
      exact ⟨(), p₁, ha, _, q, range_ok_iff.mpr ⟨_, hp', .between hl hm hle⟩, rfl, rfl⟩

theorem multiplier?_of_not_starts (h : p.current.startsMultiplier = false) :
    multiplier?.run p = .ok none p := by
  rw [multiplier?, run_get_bind]
  split
  case h_6 => rfl
  all_goals
    rename_i hp
    exact absurd h (by rw [hp]; decide)

/-- No multiplier is read exactly if none begins. -/
theorem multiplier?_none_iff :
    multiplier?.run p = .ok none q ↔ p.current.startsMultiplier = false ∧ q = p := by
  cases hs : p.current.startsMultiplier with
  | false =>
    rw [multiplier?_of_not_starts hs]
    exact ⟨fun h => by cases h; exact ⟨rfl, rfl⟩, fun h => h.2 ▸ rfl⟩
  | true =>
    refine ⟨fun h => ?_, fun h => absurd h.1 (by decide)⟩
    rw [multiplier?, run_get_bind] at h
    split at h
    case h_5 =>
      obtain ⟨_, _, -, h⟩ := run_bind_eq_ok_iff.mp h
      obtain ⟨_, _, -, h⟩ := run_bind_eq_ok_iff.mp h
      exact absurd (run_pure_eq_ok_iff.mp h).1 (by simp)
    case h_6 h₁ h₂ h₃ h₄ h₅ =>
      cases hp : p.current <;> simp_all [Token.startsMultiplier]
    all_goals
      obtain ⟨_, _, -, h⟩ := run_bind_eq_ok_iff.mp h
      exact absurd (run_pure_eq_ok_iff.mp h).1 (by simp)

end ValueGrammar.Parser
