import ValueGrammar.Proofs.Lines
import ValueGrammar.Proofs.Lockstep
import ValueGrammar.Proofs.Meaning
import ValueGrammar.Proofs.Standing

/-!
# The first impossible token

A parser reports a token that it did not expect as soon as it meets one. What it has passed until
then can still be completed: an open range by a count and a brace, an open bracket by a bracket, and
where a term is missing, by a term. So a text up to the offset of the error is the beginning of an
expression, and with the token it is none any more.

Headlines:
* **`Completable.term`**, **`Completable.factor`**, **`Completable.level`**: one step each.
* **`completable_expressionWithin`**: what was passed before an unexpected token can be completed.
* **`exists_standsBehind_of_passes`**: what was passed is what the front of the input is cut into.
* **`unexpected_is_first_impossible`**: the text before an unexpected token is viable, the text with
  it is not.
-/

namespace ValueGrammar

namespace Parser

variable {α β : Type} {p q r : Parser} {err : ParseError} {ts us : List Token}

/-! ## Steps that reject a token -/

/-- Whether steps fail because of a token that was not expected. -/
def Rejects (steps : ParserM α) (p q : Parser) : Prop :=
  ∃ err x t, steps.run p = .error err q ∧ err.fault = .unexpected x t

theorem rejects_bind_iff {x : ParserM α} {f : α → ParserM β} : Rejects (x >>= f) p q ↔
    Rejects x p q ∨ ∃ a r, x.run p = .ok a r ∧ Rejects (f a) r q := by
  unfold Rejects
  rw [EStateM.run_bind]
  cases x.run p with
  | ok a r =>
    constructor
    · exact fun h => .inr ⟨a, r, rfl, h⟩
    · rintro (⟨_, _, _, ⟨⟩, -⟩ | ⟨_, _, ⟨⟩, h⟩)
      exact h
  | error err r =>
    constructor
    · rintro ⟨err, x, t, ⟨⟩, hfault⟩
      exact .inl ⟨err, x, t, rfl, hfault⟩
    · rintro (⟨err, x, t, ⟨⟩, hfault⟩ | ⟨_, _, ⟨⟩, -⟩)
      exact ⟨err, x, t, rfl, hfault⟩

theorem not_rejects_pure (a : α) : ¬ Rejects (pure a) p q := by
  rintro ⟨_, _, _, ⟨⟩, -⟩

theorem not_rejects_fail {fault : ParseFault} (h : ∀ x t, fault ≠ .unexpected x t) :
    ¬ Rejects (fail fault : ParserM α) p q := by
  rintro ⟨_, x, t, ⟨⟩, hfault⟩
  exact h x t hfault

theorem eq_of_rejects_unexpected {x : Expectation} (h : Rejects (unexpected x : ParserM α) p q) :
    q = p := by
  obtain ⟨_, _, _, ⟨⟩, -⟩ := h
  rfl

/-- To turn an answer into another one rejects nothing. -/
theorem rejects_bind_pure_iff {x : ParserM α} {f : α → β} :
    Rejects (do return f (← x)) p q ↔ Rejects x p q := by
  rw [rejects_bind_iff]
  exact or_iff_left fun ⟨_, _, _, h⟩ => not_rejects_pure _ h

/-- A move rejects no token: where it fails, the fault is lexical. -/
theorem not_rejects_advance : ¬ Rejects advance p q := by
  rintro ⟨err, x, t, hrun, hfault⟩
  have hends := ends_advance p
  rw [hrun] at hends
  obtain ⟨e, he⟩ := hends
  rw [hfault] at he
  cases he

theorem not_rejects_consume : ¬ Rejects consume p q :=
  not_rejects_advance (p := { p with current := .endOfInput })

theorem rejects_get_bind_iff {f : Parser → ParserM α} :
    Rejects (get >>= f) p q ↔ Rejects (f p) p q := Iff.rfl

theorem not_rejects_skip {t : Token} : ¬ Rejects (skip t) p q := by
  intro h
  rw [skip, rejects_get_bind_iff] at h
  split at h
  · exact not_rejects_advance (rejects_bind_pure_iff.mp h)
  · exact not_rejects_pure false h

theorem not_rejects_continues {c : Combinator} : ¬ Rejects (continues c) p q := by
  cases c with
  | juxtaposition =>
    rw [continues, rejects_get_bind_iff]
    exact not_rejects_pure _
  | allOf | oneOf | anyOf => exact not_rejects_skip

theorem eq_of_rejects_expect {t : Token} {x : Expectation} (h : Rejects (expect t x) p q) :
    q = p := by
  rw [expect, rejects_get_bind_iff] at h
  split at h
  · exact absurd h not_rejects_advance
  · exact eq_of_rejects_unexpected h

theorem eq_of_rejects_count (h : Rejects count p q) : q = p := by
  rw [count, rejects_get_bind_iff] at h
  split at h
  · split at h
    · exact absurd (rejects_bind_pure_iff.mp h) not_rejects_advance
    · exact absurd h (not_rejects_fail (by simp))
  · exact eq_of_rejects_unexpected h

/-! ## What can be completed -/

/-- **What was passed can be completed**: with the tokens of some text behind it, it is in a
language. -/
def Completes (D : List Token → Prop) (p q : Parser) : Prop :=
  ∃ ts cs us, Passes p ts q ∧ Written cs us ∧ D (ts ++ us)

variable {D D' : List Token → Prop} {cs ds : List Char} {ws : List Token}

theorem completes_of_passes (hp : Passes p ts q) (hw : Written cs us) (h : D (ts ++ us)) :
    Completes D p q :=
  ⟨ts, cs, us, hp, hw, h⟩

theorem Completes.mono (h : Completes D p q) (hD : ∀ us, D us → D' us) : Completes D' p q := by
  obtain ⟨ts, cs, us, hp, hw, hus⟩ := h
  exact ⟨ts, cs, us, hp, hw, hD _ hus⟩

/-- Tokens in front may be passed before. -/
theorem Completes.after (h : Completes D r q) (hp : Passes p ts r)
    (hD : ∀ us, D us → D' (ts ++ us)) : Completes D' p q := by
  obtain ⟨us, cs, ws, hus, hw, h⟩ := h
  refine ⟨ts ++ us, cs, ws, passes_append_iff.mpr ⟨r, hp, hus⟩, hw, ?_⟩
  rw [List.append_assoc]
  exact hD _ h

/-- Tokens behind may be written behind. -/
theorem Completes.before (h : Completes D p q) (hw : Written ds ws)
    (hs : ∀ rest, Stops prolongs (ds ++ rest)) (hD : ∀ us, D us → D' (us ++ ws)) :
    Completes D' p q := by
  obtain ⟨ts, cs, us, hp, hus, h⟩ := h
  refine ⟨ts, cs ++ ds, us ++ ws, hp, written_append hus hs hw, ?_⟩
  rw [← List.append_assoc]
  exact hD _ h

/-- Where the counts of a range are there, the closing brace is what can be missing. -/
theorem eq_of_rejects_range_tail {least most : UInt32} (h : Rejects (do
      if most < least then
        fail (.inverted least most)
      expect .closeBrace .closeBrace
      return Multiplier.counted least most : ParserM Multiplier) p q) :
    least ≤ most ∧ q = p := by
  by_cases hlt : most < least
  · rw [if_pos hlt, rejects_bind_iff] at h
    rcases h with h | ⟨_, _, h, -⟩
    · exact absurd h (not_rejects_fail (by simp))
    · exact absurd h run_fail_ne_ok
  · rw [if_neg hlt] at h
    exact ⟨UInt32.not_lt.mp hlt, eq_of_rejects_expect (rejects_bind_pure_iff.mp h)⟩

/-- A range is completed by the count that is missing, or by the closing brace. -/
theorem completes_range (h : Rejects range p q) :
    Completes (fun us => ∃ m, Suffix (.openBrace :: us) m) p q := by
  rw [range, rejects_bind_iff] at h
  rcases h with h | ⟨least, p₁, h₁, h⟩
  · obtain rfl := eq_of_rejects_count h
    exact completes_of_passes (.nil q) (written_last_count 0) ⟨_, .exactly (denotesCount 0)⟩
  obtain ⟨low, hp₁, hl⟩ := count_ok_iff.mp h₁
  rw [rejects_bind_iff] at h
  rcases h with h | ⟨comma, p₂, h₂, h⟩
  · exact absurd h not_rejects_skip
  cases comma with
  | false =>
    obtain ⟨-, rfl⟩ := skip_false_iff.mp h₂
    rcases rejects_bind_iff.mp h with h | ⟨_, _, h₃, h⟩
    · exact absurd h (not_rejects_pure least)
    · obtain ⟨rfl, rfl⟩ := run_pure_eq_ok_iff.mp h₃
      obtain ⟨-, rfl⟩ := eq_of_rejects_range_tail h
      exact completes_of_passes hp₁ written_closeBrace ⟨_, .exactly hl⟩
  | true =>
    have hp₂ : Passes p ([.number low] ++ [.comma]) p₂ :=
      passes_append_iff.mpr ⟨p₁, hp₁, (skip_true_iff (by simp)).mp h₂⟩
    rcases rejects_bind_iff.mp h with h | ⟨most, p₃, h₃, h⟩
    · obtain rfl := eq_of_rejects_count h
      have hle := UInt32.le_refl least
      exact completes_of_passes hp₂ (written_last_count least.toNat)
        ⟨_, .between hl (denotesCount least) hle⟩
    · obtain ⟨high, hp₃, hm⟩ := count_ok_iff.mp h₃
      obtain ⟨hle, rfl⟩ := eq_of_rejects_range_tail h
      exact completes_of_passes (passes_append_iff.mpr ⟨p₂, hp₂, hp₃⟩) written_closeBrace
        ⟨_, .between hl hm hle⟩

/-- Of the multipliers, only a range can be left open. -/
theorem completes_multiplier? (h : Rejects multiplier? p q) :
    Completes (fun us => ∃ m, Suffix us m) p q := by
  rw [multiplier?, rejects_get_bind_iff] at h
  split at h
  case h_5 hp =>
    rw [rejects_bind_iff] at h
    rcases h with h | ⟨_, r, ha, h⟩
    · exact absurd h not_rejects_advance
    · have hopen : Passes p [.openBrace] r := passes_singleton_iff.mpr ⟨hp, by simp, ha⟩
      exact (completes_range (rejects_bind_pure_iff.mp h)).after hopen fun _ hus => hus
  case h_6 => exact absurd h (not_rejects_pure none)
  all_goals exact absurd (rejects_bind_pure_iff.mp h) not_rejects_advance

/-! ## Expressions that can be completed -/

/-- **Reading a category as far as it can be completed**: the category is read, and what was passed
before a token that was not expected can be completed. -/
structure Completable (k : Category) (steps : ParserM Expr) (limit : Nat) : Prop extends
    Reads k steps limit where
  completes {p q : Parser} (h : Rejects steps p q) :
    Completes (fun us => ∃ e, Derives k us e) p q

variable {inner operand : ParserM Expr} {bound limit : Nat} {c : Combinator}

/-- A missing term is completed by a name. -/
theorem completes_name (hq : q = p) : Completes (fun us => ∃ e, Derives .term us e) p q := by
  subst hq
  have hw : Written "a".toList [.identifier "a"] := written_name ⟨by decide, by simp⟩
  exact completes_of_passes (.nil q) hw ⟨_, .identifier "a"⟩

theorem Completable.term (hi : Completable (.level .anyOf) inner limit) :
    Completable .term (term inner) (limit + 1) where
  toReads := .term hi.toReads
  completes {p q} h := by
    rw [Parser.term, rejects_get_bind_iff] at h
    split at h
    case h_5 hp =>
      rw [rejects_bind_iff] at h
      rcases h with h | ⟨_, r, h₁, h⟩
      · exact absurd h not_rejects_consume
      have hopen := (consume_ok_iff hp (by simp)).mp h₁
      rw [rejects_bind_iff] at h
      rcases h with h | ⟨body, s, h₂, h⟩
      · -- the bracket is closed behind what completes the body
        have hbody : Completes (fun us => ∃ e, Derives .term (.openBracket :: us) e) r q := by
          refine (hi.completes h).before written_closeBracket (stops_cons rfl) ?_
          rintro us ⟨e, hd⟩
          exact ⟨.group e, .group hd⟩
        exact hbody.after hopen fun _ hus => hus
      · obtain ⟨ts, hts, hd⟩ := hi.sound h₂
        obtain rfl := eq_of_rejects_expect (rejects_bind_pure_iff.mp h)
        have hp : Passes p ([.openBracket] ++ ts) q := passes_append_iff.mpr ⟨r, hopen, hts⟩
        exact completes_of_passes hp written_closeBracket ⟨_, .group hd⟩
    case h_6 => exact completes_name (eq_of_rejects_unexpected h)
    all_goals exact absurd (rejects_bind_pure_iff.mp h) not_rejects_consume

theorem Completable.factor (ht : Completable .term (Parser.term inner) limit) :
    Completable .factor (factor inner) limit where
  toReads := .factor ht.toReads
  completes {p q} h := by
    rw [Parser.factor, rejects_bind_iff] at h
    rcases h with h | ⟨body, r, h₁, h⟩
    · exact (ht.completes h).mono fun us ⟨e, hd⟩ => ⟨e, .bare hd⟩
    obtain ⟨ts, hts, hd⟩ := ht.sound h₁
    rw [rejects_bind_iff] at h
    rcases h with h | ⟨m, s, -, h⟩
    · exact (completes_multiplier? h).after hts fun us ⟨m, hm⟩ => ⟨_, .multiplied hd hm⟩
    · cases m with
      | none => exact absurd h (not_rejects_pure body)
      | some m => exact absurd h (not_rejects_pure _)

/-- Operands that were passed are completed by what completes the last of them. -/
theorem completes_operands (ho : Completable c.operandCategory operand limit)
    (h : Rejects (operands c operand bound) p q) :
    Completes (fun us => ∃ e, Derives (.level c) us e) p q := by
  induction bound generalizing p with
  | zero =>
    exact (ho.completes (rejects_bind_pure_iff.mp h)).mono fun us ⟨e, hd⟩ => ⟨e, .single hd⟩
  | succ bound ih =>
    rw [operands, rejects_bind_iff] at h
    rcases h with h | ⟨first, p₁, h₁, h⟩
    · exact (ho.completes h).mono fun us ⟨e, hd⟩ => ⟨e, .single hd⟩
    obtain ⟨ts, hts, hd⟩ := ho.sound h₁
    rw [rejects_bind_iff] at h
    rcases h with h | ⟨more, p₂, h₂, h⟩
    · exact absurd h not_rejects_continues
    cases more with
    | false => exact absurd h (not_rejects_pure [first])
    | true =>
      have hp : Passes p (ts ++ c.separatorTokens) p₂ :=
        passes_append_iff.mpr ⟨p₁, hts, (continues_true_iff.mp h₂).2⟩
      refine (ih (rejects_bind_pure_iff.mp h)).after hp fun us hus => ?_
      rw [List.append_assoc]
      exact exists_derives_between (Nat.le_refl _) ⟨first, .single hd⟩ hus

theorem Completable.level (ho : Completable c.operandCategory operand (bound + 1)) :
    Completable (.level c) (level c bound operand) (bound + 1) where
  toReads := .level ho.toReads
  completes h := completes_operands ho (rejects_bind_pure_iff.mp h)

/-- **Within any bound, what was passed before an unexpected token can be completed.** -/
theorem completable_expressionWithin :
    ∀ bound, Completable (.level .anyOf) (expressionWithin bound) bound
  | 0 =>
    { toReads := reads_expressionWithin 0
      completes := fun h => (completes_name (eq_of_rejects_unexpected h)).mono
        fun _ ⟨e, hd⟩ => ⟨e, spells_of_derives hd⟩ }
  | bound + 1 =>
    .level (c := .anyOf) <| .level (c := .oneOf) <| .level (c := .allOf) <|
      .level (c := .juxtaposition) <| .factor <| .term <| completable_expressionWithin bound

/-- **What a parser has passed of a whole input** before an unexpected token can be completed. -/
theorem completes_whole (h : Rejects whole p q) :
    Completes (fun us => ∃ e, Spells us e) p q := by
  have hexpr := completable_expressionWithin (p.remaining + 1)
  rw [whole, rejects_bind_iff] at h
  rcases h with h | ⟨e, r, hr, h⟩
  · refine hexpr.completes ?_
    obtain ⟨err, x, t, hrun, hfault⟩ := h
    exact ⟨err, x, t, run_expression.symm.trans hrun, hfault⟩
  · rw [run_expression] at hr
    obtain ⟨ts, hts, hd⟩ := hexpr.sound hr
    rw [rejects_get_bind_iff] at h
    split at h
    · exact absurd h (not_rejects_pure e)
    · obtain rfl := eq_of_rejects_unexpected h
      exact completes_of_passes hts written_nil ⟨e, by rwa [List.append_nil]⟩

/-! ## What stands in front of a parser -/

variable {input : String} {front behind : List Char}

/-- **Where a parser stands in its input**: the front is cut into given tokens, and the current
token comes first in what is behind. -/
structure StandsBehind (input : String) (front behind : List Char) (ts : List Token)
    (p : Parser) : Prop where
  input_eq : p.lexer.input = input
  text : input.toList = front ++ behind
  cutsOff : CutsOff behind front ts
  offset : p.lexer.offset = byteLength front
  first : ComesFirst p.lexer.offset p.current behind p.lexer.upcoming

theorem exists_standsBehind_of_ofInput (h : ofInput input = .ok p) :
    ∃ front behind, StandsBehind input front behind [] p := by
  unfold ofInput ofLexer at h
  have hscan : (Lexer.ofInput input).upcoming = scanFrom 0 input.toList := rfl
  split at h
  · rename_i t l hnext
    cases h
    obtain ⟨front, behind, htext, hcut, hinput, hoffset, hfirst⟩ := exists_of_next hscan hnext
    exact ⟨front, behind, hinput, htext, hcut, hoffset.trans (Nat.zero_add _), hfirst⟩
  · cases h

theorem next_of_advance (h : advance.run p = .ok () q) :
    p.lexer.next = (.ok q.current, q.lexer) := by
  cases hu : p.lexer.upcoming with
  | token t offset rest =>
    rw [advance_of_token hu] at h
    cases h
    exact Lexer.next_of_token hu
  | finished length =>
    rw [advance_of_finished hu] at h
    cases h
    exact Lexer.next_of_finished hu
  | fault e =>
    rw [advance_of_fault hu] at h
    cases h

/-- A move takes the lexeme of the current token to the front, with the blanks and comments after
it. -/
theorem exists_standsBehind_of_advance (h : StandsBehind input front behind ts p)
    (ht : p.current ≠ .endOfInput) (ha : advance.run p = .ok () q) :
    ∃ front' behind', StandsBehind input front' behind' (ts ++ [p.current]) q := by
  obtain ⟨pattern, lexeme, rest, rfl, hf, htoken, hupcoming⟩ := h.first.exists_lexeme ht
  obtain ⟨skipped, behind', rfl, hskipped, hinput, hoffset, hfirst⟩ :=
    exists_of_next hupcoming (next_of_advance ha)
  refine ⟨front ++ (lexeme ++ skipped), behind', hinput.trans h.input_eq, ?_, ?_, ?_, hfirst⟩
  · rw [h.text, List.append_assoc, List.append_assoc]
  · refine .append ?_ (.token hf htoken hskipped)
    rw [List.append_assoc]
    exact h.cutsOff
  · rw [hoffset, h.offset, byteLength_append, byteLength_append, Nat.add_assoc]

/-- **What was passed is what the front of the input is cut into.** -/
theorem exists_standsBehind_of_passes (h : StandsBehind input front behind ts p)
    (hp : Passes p us q) : ∃ front' behind', StandsBehind input front' behind' (ts ++ us) q := by
  induction hp generalizing front behind ts with
  | nil =>
    rw [List.append_nil]
    exact ⟨front, behind, h⟩
  | @cons p p' q t us hc ht ha _ ih =>
    subst hc
    obtain ⟨front', behind', h⟩ := exists_standsBehind_of_advance h ht ha
    have happend : ts ++ p.current :: us = ts ++ [p.current] ++ us := by simp
    rw [happend]
    exact ih h

/-- An error names the input of the parser that it leaves. -/
theorem guides_input : Guides (fun _ => True) (fun err q => err.input = q.lexer.input) := by
  have hadvance : Leads (fun _ => True) (fun err q => err.input = q.lexer.input) advance := by
    intro p _
    cases hu : p.lexer.upcoming with
    | token t offset rest =>
      rw [advance_of_token hu]
      trivial
    | finished length =>
      rw [advance_of_finished hu]
      trivial
    | fault e =>
      rw [advance_of_fault hu]
      exact rfl
  exact ⟨hadvance, fun p _ => hadvance { p with current := .endOfInput } trivial, fun _ _ => rfl⟩

end Parser

/-! ## Viable texts -/

variable {front behind cs : List Char} {ts us : List Token} {e : Expr}

/-- **A viable text** is an expression with what some text adds on the next line. -/
def Viable (text : String) : Prop :=
  ∃ (rest : String) (e : Expr), Expr.parse (text ++ "\n" ++ rest) = .ok e

theorem lexed_toList_iff {text : String} : Lexed text.toList ts ↔ tokenize text = .ok ts :=
  lexed_iff 0

/-- What stands in front of a line break keeps its tokens, whatever stands on the next line. -/
theorem parse_nextLine_iff (h : CutsOff behind front ts) {rest : String} :
    Expr.parse (String.ofList front ++ "\n" ++ rest) = .ok e ↔
      ∃ us, Lexed rest.toList us ∧ Spells (ts ++ us) e := by
  have htext : (String.ofList front ++ "\n" ++ rest).toList = front ++ '\n' :: rest.toList := by
    simp
  rw [parse_ok_iff]
  simp only [← lexed_toList_iff, htext, h.lexed_append_iff (endsLine_cons _),
    lexed_blank_iff (c := '\n') (by decide)]
  constructor
  · rintro ⟨_, ⟨us, hus, rfl⟩, hd⟩
    exact ⟨us, hus, hd⟩
  · rintro ⟨us, hus, hd⟩
    exact ⟨_, ⟨us, hus, rfl⟩, hd⟩

namespace Parser

variable {p q : Parser} {input : String} {err : ParseError} {x : Expectation} {t : Token}

/-- **The text in front of an unexpected token is viable.** -/
theorem viable_of_rejects (hp : ofInput input = .ok p) (h : Rejects whole p q) :
    ∃ ts front behind, Passes p ts q ∧ StandsBehind input front behind ts q ∧
      Viable (String.ofList front) := by
  obtain ⟨ts, cs, us, hts, hw, e, hd⟩ := completes_whole h
  obtain ⟨_, _, hstart⟩ := exists_standsBehind_of_ofInput hp
  obtain ⟨front, behind, hq⟩ := exists_standsBehind_of_passes hstart hts
  refine ⟨ts, front, behind, hts, hq, String.ofList cs, e, ?_⟩
  rw [parse_nextLine_iff hq.cutsOff, String.toList_ofList]
  exact ⟨us, lexed_of_written hw, hd⟩

/-- **The text up to the end of an unexpected token is not viable.** -/
theorem not_viable_of_rejects (hp : Passes p ts q) (hq : StandsBehind input front behind ts q)
    (hrun : whole.run p = .error err q) (hfault : err.fault = .unexpected x t)
    (hcurrent : q.current = t) (ht : t ≠ .endOfInput) :
    ∃ p lexeme rest, Pattern.first? behind = some (p, lexeme, rest) ∧ p.token? lexeme = some t ∧
      ¬ Viable (String.ofList front ++ String.ofList lexeme) := by
  obtain ⟨pattern, lexeme, rest, rfl, hf, htoken, -⟩ := hq.first.exists_lexeme (hcurrent ▸ ht)
  rw [hcurrent] at htoken
  refine ⟨pattern, lexeme, rest, hf, htoken, ?_⟩
  rw [← String.ofList_append]
  rintro ⟨more, e, hparse⟩
  obtain ⟨us, -, hd⟩ := (parse_nextLine_iff (hq.cutsOff.append_lexeme hf htoken)).mp hparse
  rw [List.append_assoc, List.singleton_append] at hd
  exact not_spells_of_unexpected hp hrun hfault hcurrent ht hd

/-- An error that is not lexical is that of a parser at the first token of the input. -/
theorem exists_run_of_parse_error (h : Expr.parse input = .error err)
    (hlex : ∀ e, err.fault ≠ .lexical e) :
    ∃ p q, ofInput input = .ok p ∧ whole.run p = .error err q := by
  cases hp : ofInput input with
  | ok p =>
    rw [parse_eq_perform hp] at h
    exact ⟨p, _, rfl, perform_error_iff.mp (Prod.ext h rfl)⟩
  | error err' =>
    rw [Expr.parse, hp] at h
    cases h
    unfold ofInput ofLexer at hp
    split at hp
    · cases hp
    · cases hp
      exact absurd rfl (hlex _)

/-- **The first impossible token.** A token that was not expected is the first token of what stands
behind the offset of the error. The text up to there is viable and has no lexical fault, and with
the token it is viable no more. The error names the input, and its offset lies between two
characters of it. -/
theorem unexpected_is_first_impossible (h : Expr.parse input = .error err)
    (hfault : err.fault = .unexpected x t) :
    err.input = input ∧ ∃ before after : String, input = before ++ after ∧
      before.utf8ByteSize = err.offset ∧ (∃ ts, tokenize before = .ok ts) ∧
      (∀ e, tokenize input = .error e → err.offset < e.offset) ∧ Viable before ∧
      (t = .endOfInput ↔ after = "") ∧
      (t ≠ .endOfInput → ∃ p lexeme rest, Pattern.first? after.toList = some (p, lexeme, rest) ∧
        p.token? lexeme = some t ∧ ¬ Viable (before ++ String.ofList lexeme)) := by
  have hlex : ∀ e, err.fault ≠ .lexical e := by
    rw [hfault]
    exact fun _ he => nomatch he
  obtain ⟨p, q, hp, hrun⟩ := exists_run_of_parse_error h hlex
  obtain ⟨ts, front, behind, hts, hq, hviable⟩ := viable_of_rejects hp ⟨err, x, t, hrun, hfault⟩
  have hends {I : Parser → Prop} {E : ParseError → Parser → Prop} (hguides : Guides I E)
      (hI : I p) : E err q := by
    have hends := leads_whole hguides p hI
    rwa [hrun] at hends
  have hfits : Fits err q := hends guides_fits trivial
  have hcurrent : q.current = t := (hfits.found hfault).symm
  have hstands : StandsIn input q := hends guides_standing (standsIn_of_ofInput hp) hlex
  have hinput : err.input = q.lexer.input := hends guides_input trivial
  refine ⟨hinput.trans hq.input_eq, String.ofList front, String.ofList behind, ?_, ?_, ⟨ts, ?_⟩,
    fun e he => ?_, hviable, ?_, fun ht => ?_⟩
  · rw [← String.ofList_append, ← hq.text, String.ofList_toList]
  · rw [← byteLength_toList, String.toList_ofList, ← hq.offset, hfits.offset]
  · rw [← lexed_toList_iff, String.toList_ofList]
    exact hq.cutsOff.lexed
  · rw [hfits.offset]
    exact Scan.lt_of_offers (between_scan input) he
      (Lexer.handsOut_iff.mp (handsOut_of_standsIn hstands))
  · rw [← hcurrent, hq.first.endOfInput_iff, String.ofList_eq_empty_iff]
  · rw [String.toList_ofList]
    exact not_viable_of_rejects hts hq hrun hfault hcurrent ht

/-- Inside a bracket, behind a comment, a range has its first count and not its second. The text has
a lexical fault, but behind the token that was not expected. -/
theorem unexpected_is_first_impossible_in_range :
    Expr.parse "[a // ü\n\x7b2,+ $" =
      .error ⟨"[a // ü\n\x7b2,+ $", 12, .unexpected .count .plus⟩ ∧
    ∃ before after : String, "[a // ü\n\x7b2,+ $" = before ++ after ∧ before.utf8ByteSize = 12 ∧
      (∃ ts, tokenize before = .ok ts) ∧
      (∀ e, tokenize "[a // ü\n\x7b2,+ $" = .error e → 12 < e.offset) ∧ Viable before ∧
      after ≠ "" ∧
      ∃ p lexeme rest, Pattern.first? after.toList = some (p, lexeme, rest) ∧
        p.token? lexeme = some .plus ∧ ¬ Viable (before ++ String.ofList lexeme) := by
  have herr : Expr.parse "[a // ü\n\x7b2,+ $" =
      .error ⟨"[a // ü\n\x7b2,+ $", 12, .unexpected .count .plus⟩ := by
    decide +kernel
  obtain ⟨-, before, after, happend, hoffset, htokens, hfault, hviable, hend, hnot⟩ :=
    unexpected_is_first_impossible herr rfl
  exact ⟨herr, before, after, happend, hoffset, htokens, hfault, hviable,
    fun hafter => absurd (hend.mpr hafter) (by decide), hnot (by decide)⟩

end Parser

end ValueGrammar
