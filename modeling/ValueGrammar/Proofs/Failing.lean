import ValueGrammar.Proofs.Resuming

/-!
# Parsers that have failed

A failed request leaves its parser where it failed, and what the error says is true of that parser:
the offset is the one that its lexer has reached, and a token that was not expected is its current
one. In front of a lexical fault a parser is stuck. Every request begins with a term, and a term is
complete only when the token after it has been read, so a stuck parser answers nothing any more.

Headlines:
* **`fits_of_perform`**: an error fits the parser that it leaves.
* **`perform_of_error`**: a request fails as the term that it begins with.
* **`perform_of_stuck`**: a stuck parser fails at its fault and stays stuck.
* **`lexical_fault_is_final`**: nothing is answered after a lexical error, and no other one follows.
-/

namespace ValueGrammar.Parser

variable {α β : Type} {p q : Parser} {err : ParseError} {e : LexError}

/-- The answers to requests, one after another. -/
def answers (p : Parser) : List Request → List (Except ParseError Expr)
  | [] => []
  | r :: rs => (p.perform r.steps).1 :: (p.perform r.steps).2.answers rs

/-! ## What an error says -/

/-- **A stuck parser**: a lexical fault comes next, and the lexer has reached it. -/
structure StuckAt (e : LexError) (p : Parser) : Prop where
  upcoming : p.lexer.upcoming = .fault e
  offset : p.lexer.offset = e.offset

/-- **An error fits a parser**: its offset is the one that the lexer has reached, a token that was not
expected is the current one, and at a lexical fault the parser is stuck. -/
structure Fits (err : ParseError) (p : Parser) : Prop where
  offset : err.offset = p.lexer.offset
  found {x : Expectation} {t : Token} (h : err.fault = .unexpected x t) : t = p.current
  lexical {e : LexError} (h : err.fault = .lexical e) : p.StuckAt e

theorem leads_advance_fits : Leads (fun _ => True) Fits advance := by
  intro p _
  cases hu : p.lexer.upcoming with
  | token t offset rest =>
    rw [advance_of_token hu]
    trivial
  | finished length =>
    rw [advance_of_finished hu]
    trivial
  | fault e =>
    rw [advance_of_fault hu]
    refine ⟨rfl, fun h => ?_, fun h => ?_⟩
    · cases h
    · cases h
      exact ⟨rfl, rfl⟩

theorem guides_fits : Guides (fun _ => True) Fits where
  advance := leads_advance_fits
  consume p _ := leads_advance_fits { p with current := .endOfInput } trivial
  report {p fault} _ hf := by
    refine ⟨rfl, fun h => ?_, fun h => ?_⟩
    · subst h
      exact hf
    · subst h
      exact hf.elim

theorem perform_error_iff {steps : ParserM α} :
    p.perform steps = (.error err, q) ↔ steps.run p = .error err q := by
  unfold perform
  cases steps.run p with
  | ok a q' => simp
  | error err' q' => simp

/-- What leads to a fitting error leads a failed request there. -/
theorem error_of_leads {I : Parser → Prop} {E : ParseError → Parser → Prop} {steps : ParserM α}
    (h : Leads I E steps) (hp : I p) (herr : (p.perform steps).1 = .error err) :
    E err (p.perform steps).2 := by
  have hrun := perform_error_iff.mp (Prod.ext herr rfl)
  have hq := h p hp
  rw [hrun] at hq
  exact hq

/-- An error fits the parser that it leaves. -/
theorem fits_of_perform {r : Request} (h : (p.perform r.steps).1 = .error err) :
    Fits err (p.perform r.steps).2 :=
  error_of_leads (leads_request guides_fits r) trivial h

/-! ## Every request begins with a term -/

theorem run_bind_of_error {x : ParserM α} (f : α → ParserM β) (h : x.run p = .error err q) :
    (x >>= f).run p = .error err q := by
  rw [EStateM.run_bind, h]

theorem level_of_error (c : Combinator) (bound : Nat) {operand : ParserM Expr}
    (h : operand.run p = .error err q) : (level c bound operand).run p = .error err q := by
  refine run_bind_of_error _ ?_
  cases bound with
  | zero => exact run_bind_of_error _ h
  | succ bound => exact run_bind_of_error _ h

/-- A request fails as the term that it begins with. -/
theorem perform_of_error (r : Request)
    (h : (term (expressionWithin p.remaining)).run p = .error err q) :
    p.perform r.steps = (.error err, q) := by
  have hexpr : expression.run p = .error err q := by
    rw [run_expression, expressionWithin]
    exact level_of_error _ _ <| level_of_error _ _ <| level_of_error _ _ <| level_of_error _ _ <|
      run_bind_of_error _ h
  rw [perform_error_iff]
  cases r with
  | whole => exact run_bind_of_error _ hexpr
  | expression => exact hexpr

theorem term_of_not_startsTerm (inner : ParserM Expr) (h : p.current.startsTerm = false) :
    (term inner).run p =
      .error ⟨p.lexer.input, p.lexer.offset, .unexpected .term p.current⟩ p := by
  rw [term, run_get_bind]
  split
  case h_6 => rfl
  all_goals
    rename_i hp
    exact absurd h (by rw [hp]; simp [Token.startsTerm])

theorem term_of_fault (inner : ParserM Expr) (h : p.current.startsTerm = true)
    (hu : p.lexer.upcoming = .fault e) :
    (term inner).run p = .error ⟨p.lexer.input, e.offset, .lexical e⟩
      ⟨⟨p.lexer.input, e.offset, .fault e⟩, .endOfInput⟩ := by
  have hconsume : consume.run p = .error ⟨p.lexer.input, e.offset, .lexical e⟩
      ⟨⟨p.lexer.input, e.offset, .fault e⟩, .endOfInput⟩ :=
    advance_of_fault (p := { p with current := .endOfInput }) hu
  rw [term, run_get_bind]
  split
  case h_6 => simp_all [Token.startsTerm]
  all_goals exact run_bind_of_error _ hconsume

/-- A request fails where no term begins, and moves nothing. -/
theorem perform_of_not_startsTerm (r : Request) (h : p.current.startsTerm = false) :
    p.perform r.steps =
      (.error ⟨p.lexer.input, p.lexer.offset, .unexpected .term p.current⟩, p) :=
  perform_of_error r (term_of_not_startsTerm _ h)

/-! ## Lexical faults -/

/-- **A stuck parser** fails at its fault, for that fault or because no term begins, and stays
stuck. -/
theorem perform_of_stuck (h : p.StuckAt e) (r : Request) :
    ∃ later, (p.perform r.steps).1 = .error later ∧ later.offset = e.offset ∧
      (later.fault = .lexical e ∨ ∃ t, later.fault = .unexpected .term t) ∧
      (p.perform r.steps).2.StuckAt e := by
  cases hs : p.current.startsTerm with
  | true =>
    rw [perform_of_error r (term_of_fault _ hs h.upcoming)]
    exact ⟨_, rfl, rfl, .inl rfl, rfl, rfl⟩
  | false =>
    rw [perform_of_not_startsTerm r hs]
    exact ⟨_, rfl, h.offset, .inr ⟨_, rfl⟩, h⟩

theorem stuck_after (h : p.StuckAt e) (rs : List Request) : (p.after rs).StuckAt e := by
  induction rs generalizing p with
  | nil => exact h
  | cons r rs ih =>
    obtain ⟨_, -, -, -, hq⟩ := perform_of_stuck h r
    exact ih hq

/-- After a lexical error a parser is stuck at its fault, whatever else it is asked for. -/
theorem stuck_of_mem_answers {rs : List Request} (h : .error err ∈ p.answers rs)
    (he : err.fault = .lexical e) : (p.after rs).StuckAt e := by
  induction rs generalizing p with
  | nil => exact absurd h List.not_mem_nil
  | cons r rs ih =>
    rcases List.mem_cons.mp h with hr | hrs
    · exact stuck_after ((fits_of_perform hr.symm).lexical he) rs
    · exact ih hrs

/-- **A lexical fault is final.** Once an answer was a lexical error, no request is answered by an
expression: each fails at the same offset, with the same lexical error or because no term begins. -/
theorem lexical_fault_is_final {earlier : List Request} (h : .error err ∈ p.answers earlier)
    (he : err.fault = .lexical e) (r : Request) :
    ∃ later, ((p.after earlier).perform r.steps).1 = .error later ∧ later.offset = e.offset ∧
      (later.fault = .lexical e ∨ ∃ t, later.fault = .unexpected .term t) := by
  obtain ⟨later, hlater, hoffset, hfault, -⟩ := perform_of_stuck (stuck_of_mem_answers h he) r
  exact ⟨later, hlater, hoffset, hfault⟩

/-- The count of a range is there, but not what follows it. Asked again, the parser takes the count
for a term and meets the same fault; asked once more, it has no term left. -/
theorem lexical_fault_is_final_in_range : ∃ p, ofInput "a\x7b2$ b" = .ok p ∧
    p.answers [.whole, .expression, .whole] = [
      .error ⟨"a\x7b2$ b", 3, .lexical ⟨3, '$'⟩⟩, .error ⟨"a\x7b2$ b", 3, .lexical ⟨3, '$'⟩⟩,
      .error ⟨"a\x7b2$ b", 3, .unexpected .term .endOfInput⟩] ∧
    ∀ r : Request, ∃ later,
      ((p.after [.whole, .expression, .whole]).perform r.steps).1 = .error later ∧ later.offset = 3 ∧
      (later.fault = .lexical ⟨3, '$'⟩ ∨ ∃ t, later.fault = .unexpected .term t) := by
  have hanswers : (ofInput "a\x7b2$ b").map (answers · [.whole, .expression, .whole]) = .ok [
      .error ⟨"a\x7b2$ b", 3, .lexical ⟨3, '$'⟩⟩, .error ⟨"a\x7b2$ b", 3, .lexical ⟨3, '$'⟩⟩,
      .error ⟨"a\x7b2$ b", 3, .unexpected .term .endOfInput⟩] := by
    decide +kernel
  cases hp : ofInput "a\x7b2$ b" with
  | error err =>
    rw [hp] at hanswers
    cases hanswers
  | ok p =>
    rw [hp] at hanswers
    have h : p.answers [.whole, .expression, .whole] = _ := Except.ok.inj hanswers
    have hfirst : .error ⟨"a\x7b2$ b", 3, .lexical ⟨3, '$'⟩⟩ ∈
        p.answers [.whole, .expression, .whole] := by
      rw [h]
      exact List.mem_cons_self
    exact ⟨p, rfl, h, lexical_fault_is_final (e := ⟨3, '$'⟩) hfirst rfl⟩

end ValueGrammar.Parser
