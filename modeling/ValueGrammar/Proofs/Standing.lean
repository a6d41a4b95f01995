import ValueGrammar.Proofs.Failing
import ValueGrammar.Proofs.Offsets

/-!
# Where a parser stands in its input

As long as no lexical error has come up, a parser stands at a token of its input: a lexer that
starts anew hands out the parser's current token after some others, and is then where the parser's
lexer is. So what the parser does not expect is really there. In front of a lexical fault it is
not: the current token is then an earlier one, or the end of the input in place of one consumed.

A parser that is asked again goes on where it stands. What it answers for a whole expression reaches
up to the end of the input, but does not begin where the input does.

Headlines:
* **`handsOut_iff`**: a lexer hands out what its scan offers.
* **`standsIn_after`**: a parser stands in its input until there is a lexical error.
* **`found_iff_no_lexical_error`**: what was found is there exactly if there was no lexical error.
* **`whole_iff_first`**: an answer covers the input exactly if nothing was asked before.
-/

namespace ValueGrammar

/-! ## Lexers that start anew -/

namespace Lexer

variable {l after : Lexer} {t : Token} {ts : List Token} {offset : Nat}

/-- A lexer hands out a token at an offset, after some others. -/
def HandsOut (l : Lexer) (t : Token) (offset : Nat) : Prop :=
  ∃ n after, (l.after n).next = (.ok t, after) ∧ after.offset = offset

theorem after_succ (l : Lexer) (n : Nat) : l.after (n + 1) = (l.after n).next.2 := by
  induction n generalizing l with
  | zero => rfl
  | succ n ih => exact ih l.next.2

theorem offers_of_next (h : l.next = (.ok t, after)) : l.upcoming.Offers t after.offset := by
  cases hu : l.upcoming with
  | token t' offset rest =>
    rw [next_of_token hu] at h
    cases h
    exact .inl ⟨rfl, rfl⟩
  | finished length =>
    rw [next_of_finished hu] at h
    cases h
    exact ⟨rfl, rfl⟩
  | fault e =>
    rw [next_of_fault hu] at h
    cases h

/-- What a lexer offers after its next token it offers at once. -/
theorem offers_of_offers_next (h : l.next.2.upcoming.Offers t offset) :
    l.upcoming.Offers t offset := by
  cases hu : l.upcoming with
  | token t' offset' rest =>
    rw [next_of_token hu] at h
    exact .inr h
  | finished length =>
    rw [next_of_finished hu] at h
    exact h
  | fault e =>
    rw [next_of_fault hu] at h
    exact h

/-- A lexer hands out what its scan offers. -/
theorem handsOut_iff : l.HandsOut t offset ↔ l.upcoming.Offers t offset := by
  constructor
  · rintro ⟨n, after, hnext, rfl⟩
    induction n generalizing l with
    | zero => exact offers_of_next hnext
    | succ n ih => exact offers_of_offers_next (ih hnext)
  · intro h
    obtain ⟨input, start, upcoming⟩ := l
    induction upcoming generalizing start with
    | token t' offset' rest ih =>
      rcases h with ⟨rfl, rfl⟩ | h
      · exact ⟨0, _, rfl, rfl⟩
      · obtain ⟨n, after, hnext, hoffset⟩ := ih offset' h
        exact ⟨n + 1, after, hnext, hoffset⟩
    | finished length =>
      obtain ⟨rfl, rfl⟩ := h
      exact ⟨0, _, rfl, rfl⟩
    | fault e => exact h.elim

theorem tokens_of_next (h : l.next = (.ok t, after)) (ht : t ≠ .endOfInput)
    (hts : after.tokens = .ok ts) : l.tokens = .ok (t :: ts) := by
  cases hu : l.upcoming with
  | token t' offset rest =>
    rw [next_of_token hu] at h
    cases h
    rw [tokens, hu, Scan.tokens, show rest.tokens = .ok ts from hts]
    rfl
  | finished length =>
    rw [next_of_finished hu] at h
    cases h
    exact absurd rfl ht
  | fault e =>
    rw [next_of_fault hu] at h
    cases h

theorem exists_tokens_next (l : Lexer) :
    ∃ front, l.tokens = l.next.2.tokens.map (front ++ ·) := by
  have same {tokens : Except LexError (List Token)} : tokens = tokens.map ([] ++ ·) := by
    cases tokens <;> rfl
  cases hu : l.upcoming with
  | token t offset rest =>
    refine ⟨[t], ?_⟩
    rw [next_of_token hu, tokens, hu]
    rfl
  | finished length =>
    refine ⟨[], ?_⟩
    rw [next_of_finished hu, ← same, tokens, hu]
    rfl
  | fault e =>
    refine ⟨[], ?_⟩
    rw [next_of_fault hu, ← same, tokens, hu]
    rfl

/-- The tokens of a lexer are those passed and those that are left, up to the same fault if there is
one. -/
theorem exists_tokens_after (l : Lexer) (n : Nat) :
    ∃ passed, l.tokens = (l.after n).tokens.map (passed ++ ·) := by
  induction n generalizing l with
  | zero =>
    refine ⟨[], ?_⟩
    rw [after]
    cases l.tokens <;> rfl
  | succ n ih =>
    obtain ⟨front, hfront⟩ := exists_tokens_next l
    obtain ⟨passed, hpassed⟩ := ih l.next.2
    refine ⟨front ++ passed, ?_⟩
    rw [hfront, hpassed, after]
    cases (l.next.2.after n).tokens with
    | ok ts => exact congrArg Except.ok (List.append_assoc front passed ts).symm
    | error e => rfl

/-- Tokens are handed out at ascending offsets, one at each. -/
theorem handsOut_unique {input : String} {u : Token} (ht : (ofInput input).HandsOut t offset)
    (hu : (ofInput input).HandsOut u offset) : t = u :=
  Scan.offers_unique (between_scan input) (handsOut_iff.mp ht) (handsOut_iff.mp hu)

end Lexer

namespace Parser

variable {p q : Parser} {input : String} {e : LexError} {err : ParseError} {rs : List Request}

/-! ## Standing in an input -/

/-- **A parser stands in an input** if a lexer that starts anew hands out its current token after
some others, and is then where its lexer is. -/
def StandsIn (input : String) (p : Parser) : Prop :=
  ∃ n, ((Lexer.ofInput input).after n).next = (.ok p.current, p.lexer)

theorem standsIn_of_ofInput (h : ofInput input = .ok p) : StandsIn input p := by
  refine ⟨0, ?_⟩
  unfold ofInput ofLexer at h
  rw [Lexer.after]
  split at h
  · cases h
    assumption
  · cases h

theorem handsOut_of_standsIn (h : StandsIn input p) :
    (Lexer.ofInput input).HandsOut p.current p.lexer.offset := by
  obtain ⟨n, hn⟩ := h
  exact ⟨n, p.lexer, hn, rfl⟩

/-- Whether the lexer of a parser has come from the beginning of an input. -/
def Follows (input : String) (p : Parser) : Prop := ∃ n, p.lexer = (Lexer.ofInput input).after n

theorem follows_of_standsIn (h : StandsIn input p) : Follows input p := by
  obtain ⟨n, hn⟩ := h
  exact ⟨n + 1, by rw [Lexer.after_succ, hn]⟩

theorem lexer_perform_advance (p : Parser) : (p.perform advance).2.lexer = p.lexer.next.2 := by
  unfold perform
  cases hu : p.lexer.upcoming with
  | token t offset rest => rw [advance_of_token hu, Lexer.next_of_token hu]
  | finished length => rw [advance_of_finished hu, Lexer.next_of_finished hu]
  | fault e => rw [advance_of_fault hu, Lexer.next_of_fault hu]

theorem follows_of_advance (h : Follows input p) : Follows input (p.perform advance).2 := by
  obtain ⟨n, hn⟩ := h
  exact ⟨n + 1, by rw [lexer_perform_advance, hn, Lexer.after_succ]⟩

theorem steady_follows : Steady (Follows input) where
  advance _ h := follows_of_advance h
  consume p h := follows_of_advance (p := { p with current := .endOfInput }) h

/-- What a failed request leaves: after any error but a lexical one, the parser still stands in the
input. -/
def LeftStanding (input : String) (err : ParseError) (q : Parser) : Prop :=
  (∀ e, err.fault ≠ .lexical e) → StandsIn input q

/-- Where a move leads to does not depend on the current token, which may have been consumed. -/
theorem ends_advance_of_follows (h : Follows input p) :
    Ends (StandsIn input) (LeftStanding input) (advance.run p) := by
  obtain ⟨n, hn⟩ := h
  cases hu : p.lexer.upcoming with
  | token t offset rest =>
    rw [advance_of_token hu]
    exact ⟨n, by rw [← hn, Lexer.next_of_token hu]⟩
  | finished length =>
    rw [advance_of_finished hu]
    exact ⟨n, by rw [← hn, Lexer.next_of_finished hu]⟩
  | fault e =>
    rw [advance_of_fault hu]
    exact fun hne => absurd rfl (hne e)

theorem guides_standing : Guides (StandsIn input) (LeftStanding input) where
  advance _ h := ends_advance_of_follows (follows_of_standsIn h)
  consume p h := by
    have hfollows : Follows input p := follows_of_standsIn h
    exact ends_advance_of_follows (p := { p with current := .endOfInput }) hfollows
  report h _ := fun _ => h

/-- Whether one of some answers is a lexical error. -/
def LexicalAmong (answers : List (Except ParseError Expr)) : Prop :=
  ∃ err e, .error err ∈ answers ∧ err.fault = .lexical e

theorem standsIn_of_perform (h : StandsIn input p) (r : Request)
    (hlex : ∀ err e, (p.perform r.steps).1 = .error err → err.fault ≠ .lexical e) :
    StandsIn input (p.perform r.steps).2 := by
  have hleads : Ends (StandsIn input) (LeftStanding input) (r.steps.run p) :=
    leads_request guides_standing r p h
  unfold perform at hlex ⊢
  cases hrun : r.steps.run p with
  | ok a q =>
    rw [hrun] at hleads
    exact hleads
  | error err q =>
    rw [hrun] at hleads hlex
    exact hleads fun e => hlex err e rfl

/-- A parser stands in its input until there is a lexical error. -/
theorem standsIn_after (h : StandsIn input p) (hlex : ¬ LexicalAmong (p.answers rs)) :
    StandsIn input (p.after rs) := by
  induction rs generalizing p with
  | nil => exact h
  | cons r rs ih =>
    refine ih (standsIn_of_perform h r fun err e herr he => hlex ?_) ?_
    · exact ⟨err, e, herr ▸ List.mem_cons_self, he⟩
    · rintro ⟨err, e, hmem, he⟩
      exact hlex ⟨err, e, List.mem_cons_of_mem _ hmem, he⟩

/-- A lexical error is that of the input, and the parser is stuck at it from then on. -/
theorem exists_stuck_after (h : StandsIn input p) (hlex : LexicalAmong (p.answers rs)) :
    ∃ e, tokenize input = .error e ∧ (p.after rs).StuckAt e := by
  obtain ⟨err, e, hmem, he⟩ := hlex
  have hstuck := stuck_of_mem_answers hmem he
  obtain ⟨n, hn⟩ := inv_after steady_follows (follows_of_standsIn h) rs
  obtain ⟨passed, htokens⟩ := Lexer.exists_tokens_after (.ofInput input) n
  have hfault : (p.after rs).lexer.tokens = .error e := by
    rw [Lexer.tokens, hstuck.upcoming]
    rfl
  rw [← hn, hfault] at htokens
  exact ⟨e, htokens, hstuck⟩

/-! ## What was found -/

/-- **What a parser did not expect is there** exactly if there was no lexical error before: a lexer
that starts anew hands it out at the offset of the error, and nothing else. Then it is the end of
the input exactly if the error is behind the last byte. -/
theorem found_iff_no_lexical_error (hp : ofInput input = .ok p) {earlier : List Request}
    {r : Request} (herr : ((p.after earlier).perform r.steps).1 = .error err) {x : Expectation}
    {found : Token} (hfault : err.fault = .unexpected x found) :
    ((∀ t, (Lexer.ofInput input).HandsOut t err.offset ↔ t = found) ↔
        ¬ LexicalAmong (p.answers earlier)) ∧
      (¬ LexicalAmong (p.answers earlier) →
        (found = .endOfInput ↔ err.offset = input.utf8ByteSize)) := by
  have hstart := standsIn_of_ofInput hp
  have hfits := fits_of_perform herr
  have hthere (hlex : ¬ LexicalAmong (p.answers earlier)) :
      (Lexer.ofInput input).HandsOut found err.offset := by
    have hstands := error_of_leads (leads_request guides_standing r)
      (standsIn_after hstart hlex) herr (by rw [hfault]; exact fun _ h => nomatch h)
    rw [hfits.found hfault, hfits.offset]
    exact handsOut_of_standsIn hstands
  refine ⟨⟨fun hall hlex => ?_, fun hlex t => ⟨fun ht => ?_, ?_⟩⟩, fun hlex => ?_⟩
  · -- all that is handed out lies before the fault, and a stuck parser reports its offset
    obtain ⟨e, htokens, hstuck⟩ := exists_stuck_after hstart hlex
    obtain ⟨later, hlater, hoffset, -, -⟩ := perform_of_stuck hstuck r
    cases herr.symm.trans hlater
    have hoffers := Lexer.handsOut_iff.mp ((hall found).mpr rfl)
    exact absurd hoffset (Nat.ne_of_lt (Scan.lt_of_offers (between_scan input) htokens hoffers))
  · exact Lexer.handsOut_unique ht (hthere hlex)
  · rintro rfl
    exact hthere hlex
  · exact Scan.offers_endOfInput_iff (between_scan input) (scan_ne_endOfInput input)
      (Lexer.handsOut_iff.mp (hthere hlex))

/-- A range has not been closed, and the bar in its place begins no term either. The text has a
lexical fault, but the parser has not come to it. -/
theorem found_iff_no_lexical_error_bar : ∃ p, ofInput "a\x7b1 | é" = .ok p ∧
    ((p.after [.expression]).perform Request.whole.steps).1 =
      .error ⟨"a\x7b1 | é", 4, .unexpected .term .bar⟩ ∧
    (∀ t, (Lexer.ofInput "a\x7b1 | é").HandsOut t 4 ↔ t = .bar) ∧
    (Token.bar = .endOfInput ↔ 4 = "a\x7b1 | é".utf8ByteSize) := by
  have hanswers : (ofInput "a\x7b1 | é").map (answers · [.expression, .whole]) = .ok [
      .error ⟨"a\x7b1 | é", 4, .unexpected .closeBrace .bar⟩,
      .error ⟨"a\x7b1 | é", 4, .unexpected .term .bar⟩] := by
    decide +kernel
  cases hp : ofInput "a\x7b1 | é" with
  | error err =>
    rw [hp] at hanswers
    cases hanswers
  | ok p =>
    rw [hp] at hanswers
    obtain ⟨hfirst, hsecond⟩ := List.cons_eq_cons.mp (Except.ok.inj hanswers)
    have herr : ((p.after [.expression]).perform Request.whole.steps).1 = .error _ :=
      (List.cons_eq_cons.mp hsecond).1
    have hlex : ¬ LexicalAmong (p.answers [.expression]) := by
      rintro ⟨err, e, hmem, he⟩
      rw [answers, hfirst] at hmem
      cases List.mem_singleton.mp hmem
      cases he
    obtain ⟨hiff, hend⟩ := found_iff_no_lexical_error hp herr rfl
    exact ⟨p, rfl, herr, hiff.mpr hlex, hend hlex⟩

/-- **A fault after a leaf** is reported once. Asked again, the parser finds the end of the input,
at an offset where nothing is handed out and which is not the byte length. -/
theorem endOfInput_found_at_fault : ∃ p, ofInput "a $" = .ok p ∧
    p.answers [.whole, .whole] = [.error ⟨"a $", 2, .lexical ⟨2, '$'⟩⟩,
      .error ⟨"a $", 2, .unexpected .term .endOfInput⟩] ∧
    (∀ t, ¬ (Lexer.ofInput "a $").HandsOut t 2) ∧ "a $".utf8ByteSize ≠ 2 := by
  have hanswers : (ofInput "a $").map (answers · [.whole, .whole]) = .ok [
      .error ⟨"a $", 2, .lexical ⟨2, '$'⟩⟩,
      .error ⟨"a $", 2, .unexpected .term .endOfInput⟩] := by
    decide +kernel
  have htokens : tokenize "a $" = .error ⟨2, '$'⟩ := by
    decide +kernel
  cases hp : ofInput "a $" with
  | error err =>
    rw [hp] at hanswers
    cases hanswers
  | ok p =>
    rw [hp] at hanswers
    refine ⟨p, rfl, Except.ok.inj hanswers, fun t ht => ?_, by decide +kernel⟩
    exact Nat.lt_irrefl 2
      (Scan.lt_of_offers (between_scan "a $") htokens (Lexer.handsOut_iff.mp ht))

/-! ## What an answer covers -/

/-- At the end of the input nothing moves any more. -/
theorem after_of_endOfInput (h : p.current = .endOfInput) (rs : List Request) :
    p.after rs = p := by
  induction rs with
  | nil => rfl
  | cons r rs ih => rw [after, perform_of_not_startsTerm r (by rw [h]; rfl), ih]

/-- A parser that could answer for the whole is at the end of the input after any request. -/
theorem current_of_perform_whole_ok {e : Expr} (h : (p.perform whole).1 = .ok e) (r : Request) :
    (p.perform r.steps).2.current = .endOfInput := by
  obtain ⟨q, hq⟩ := perform_ok_iff.mp h
  obtain ⟨-, -, -, hcurrent⟩ := whole_ok_iff.mp hq
  cases r with
  | whole =>
    rw [Request.steps, perform, hq]
    exact hcurrent
  | expression =>
    obtain ⟨e', q', hexpr, hend⟩ := run_bind_eq_ok_iff.mp hq
    rw [run_get_bind] at hend
    split at hend
    · obtain ⟨-, rfl⟩ := run_pure_eq_ok_iff.mp hend
      rw [Request.steps, perform, hexpr]
      exact hcurrent
    · exact absurd hend run_unexpected_ne_ok

/-- If a whole expression is answered after other requests, the first of them could not have
answered one. -/
theorem perform_whole_ne_ok_of_after {d e : Expr} (hrs : rs ≠ [])
    (h : ((p.after rs).perform whole).1 = .ok e) : (p.perform whole).1 ≠ .ok d := by
  intro hfirst
  obtain ⟨r, rs, rfl⟩ := List.exists_cons_of_ne_nil hrs
  have hend := current_of_perform_whole_ok hfirst r
  rw [after, after_of_endOfInput hend] at h
  exact perform_whole_ne_ok hend h

theorem parse_eq_perform (hp : ofInput input = .ok p) :
    Expr.parse input = (p.perform whole).1 := by
  rw [Expr.parse, hp]
  rfl

/-- What a parser that stands in an input answers for a whole expression is spelled by the last
tokens of the input. -/
theorem exists_spells_of_standsIn (h : StandsIn input p) {e : Expr}
    (he : (p.perform whole).1 = .ok e) :
    ∃ passed ts, tokenize input = .ok (passed ++ ts) ∧ Spells ts e := by
  have hcurrent : p.current ≠ .endOfInput := fun hc => perform_whole_ne_ok hc he
  obtain ⟨n, hn⟩ := h
  have hlater : p.lexer.upcoming.All (· ≠ .endOfInput) := by
    have hall := Lexer.all_after (l := Lexer.ofInput input) (scan_ne_endOfInput input) (n + 1)
    rwa [Lexer.after_succ, hn] at hall
  obtain ⟨us, hus, hd⟩ := (perform_whole_ok_iff_tokens hcurrent hlater).mp he
  have htokens := Lexer.tokens_of_next hn hcurrent hus
  obtain ⟨passed, hpassed⟩ := Lexer.exists_tokens_after (.ofInput input) n
  rw [htokens] at hpassed
  exact ⟨passed, p.current :: us, hpassed, hd⟩

/-- **An answer covers the whole input exactly if it is the first one.** What a parser answers for a
whole expression is spelled by the tokens of its input from some place up to the end, and this place
is the beginning exactly if nothing was asked before. -/
theorem whole_iff_first (hp : ofInput input = .ok p) {earlier : List Request} {e : Expr}
    (he : ((p.after earlier).perform whole).1 = .ok e) :
    (Expr.parse input = .ok e ↔ earlier = []) ∧
      ∃ passed ts, tokenize input = .ok (passed ++ ts) ∧ Spells ts e ∧
        (passed = [] ↔ earlier = []) := by
  by_cases hfirst : earlier = []
  · subst hfirst
    have hparse : Expr.parse input = .ok e := (parse_eq_perform hp).trans he
    obtain ⟨ts, hts, hd⟩ := parse_ok_iff.mp hparse
    exact ⟨iff_of_true hparse rfl, [], ts, hts, hd, iff_of_true rfl rfl⟩
  · have hparse : Expr.parse input ≠ .ok e := by
      rw [parse_eq_perform hp]
      exact perform_whole_ne_ok_of_after hfirst he
    have hlex : ¬ LexicalAmong (p.answers earlier) := by
      intro hlex
      obtain ⟨_, -, hstuck⟩ := exists_stuck_after (standsIn_of_ofInput hp) hlex
      obtain ⟨later, hlater, -⟩ := perform_of_stuck hstuck Request.whole
      cases he.symm.trans hlater
    obtain ⟨passed, ts, htokens, hd⟩ :=
      exists_spells_of_standsIn (standsIn_after (standsIn_of_ofInput hp) hlex) he
    refine ⟨iff_of_false hparse hfirst, passed, ts, htokens, hd, iff_of_false ?_ hfirst⟩
    rintro rfl
    exact hparse (parse_ok_iff.mpr ⟨ts, htokens, hd⟩)

/-- Two ranges are left open one after the other, and the third answer is the leaf behind them. -/
theorem whole_iff_first_behind_ranges : ∃ p, ofInput "a\x7b1 [b\x7b2 c#" = .ok p ∧
    ((p.after [.whole, .expression]).perform whole).1 =
      .ok (.multiplied (.leaf (.identifier "c")) .commaSeparated) ∧
    Expr.parse "a\x7b1 [b\x7b2 c#" ≠
      .ok (.multiplied (.leaf (.identifier "c")) .commaSeparated) ∧
    ∃ passed ts, tokenize "a\x7b1 [b\x7b2 c#" = .ok (passed ++ ts) ∧
      Spells ts (.multiplied (.leaf (.identifier "c")) .commaSeparated) ∧ passed ≠ [] := by
  have hanswer : (ofInput "a\x7b1 [b\x7b2 c#" >>= fun p =>
      ((p.after [.whole, .expression]).perform whole).1) =
        .ok (.multiplied (.leaf (.identifier "c")) .commaSeparated) := by
    decide +kernel
  obtain ⟨p, hp, he⟩ := bind_eq_ok_iff.mp hanswer
  obtain ⟨hiff, passed, ts, htokens, hd, hpassed⟩ := whole_iff_first hp he
  refine ⟨p, hp, he, fun h => ?_, passed, ts, htokens, hd, fun h => ?_⟩
  · exact absurd (hiff.mp h) (by decide)
  · exact absurd (hpassed.mp h) (by decide)

/-- **A part is answered for the whole**: the first request fails inside a range, and the second
answers the rest, which the input as a whole is not. -/
theorem part_answered_for_whole : ∃ p, ofInput "a\x7b1 b" = .ok p ∧
    p.answers [.whole, .whole] = [.error ⟨"a\x7b1 b", 4, .unexpected .closeBrace
      (.identifier "b")⟩, .ok (.leaf (.identifier "b"))] ∧
    Expr.parse "a\x7b1 b" ≠ .ok (.leaf (.identifier "b")) := by
  have hanswers : (ofInput "a\x7b1 b").map (answers · [.whole, .whole]) = .ok [
      .error ⟨"a\x7b1 b", 4, .unexpected .closeBrace (.identifier "b")⟩,
      .ok (.leaf (.identifier "b"))] := by
    decide +kernel
  cases hp : ofInput "a\x7b1 b" with
  | error err =>
    rw [hp] at hanswers
    cases hanswers
  | ok p =>
    rw [hp] at hanswers
    exact ⟨p, rfl, Except.ok.inj hanswers, by decide +kernel⟩

end Parser

end ValueGrammar
