import ValueGrammar.Proofs.Parts

/-!
# Parsers that are asked again

A parser can be asked for an expression several times, and it stays where a failed attempt left it.
Whatever was asked before, what it answers has the shape of a parsed expression.

All that changes a parser is `advance` and `consume`. So what these two lead to, and what a parser
reports where it stands, says where every request leads, also when it fails.

Headlines:
* **`leads_request`**: a request leads where moving on does.
* **`inv_after`**: requests one after another keep what moving on keeps.
* **`canonical_of_perform`**: what a parser with lexable tokens answers is canonical.
* **`canonical_of_request`**: every answer is canonical, whatever was asked before.
-/

namespace ValueGrammar

namespace Parser

variable {α β : Type} {I : Parser → Prop} {E : ParseError → Parser → Prop}

/-! ## Requests -/

/-- What a parser can be asked for: an expression up to the end of the input, or one as far as it
goes. -/
inductive Request
  | whole
  | expression
  deriving DecidableEq

/-- The steps that answer a request. -/
def Request.steps : Request → ParserM Expr
  | .whole => Parser.whole
  | .expression => Parser.expression

/-- The parser after some requests, be they answered or not. -/
def after (p : Parser) : List Request → Parser
  | [] => p
  | r :: rs => (p.perform r.steps).2.after rs

/-! ## Where steps lead -/

/-- Whether a run ends well: in a parser with a property if it succeeds, and otherwise in an error
and a parser that fit together. -/
def Ends (I : Parser → Prop) (E : ParseError → Parser → Prop) :
    EStateM.Result ParseError Parser α → Prop
  | .ok _ q => I q
  | .error err q => E err q

/-- **Steps lead** from parsers with a property to such parsers, or to an error that fits. -/
def Leads (I : Parser → Prop) (E : ParseError → Parser → Prop) (steps : ParserM α) : Prop :=
  ∀ p, I p → Ends I E (steps.run p)

theorem leads_pure (a : α) : Leads I E (pure a) := fun _ h => h

theorem leads_bind {x : ParserM α} {f : α → ParserM β} (hx : Leads I E x)
    (hf : ∀ a, Leads I E (f a)) : Leads I E (x >>= f) := by
  intro p h
  have hq := hx p h
  rw [EStateM.run_bind]
  cases hrun : x.run p with
  | ok a q =>
    rw [hrun] at hq
    exact hf a q hq
  | error err q =>
    rw [hrun] at hq
    exact hq

theorem leads_get_bind {f : Parser → ParserM α} (h : ∀ p, Leads I E (f p)) :
    Leads I E (get >>= f) :=
  fun p => h p p

/-- What a parser can report where it stands: of tokens its current one only, and no lexical fault,
which takes a move. -/
def MayReport (p : Parser) : ParseFault → Prop
  | .unexpected _ found => found = p.current
  | .lexical _ => False
  | .invalidCount _ | .inverted .. => True

/-- **A property that guides**: moving on leads from it to itself or to a fitting error, so does
consuming a token, and what a parser reports where it stands fits. -/
structure Guides (I : Parser → Prop) (E : ParseError → Parser → Prop) : Prop where
  advance : Leads I E advance
  consume : Leads I E consume
  report {p : Parser} {fault : ParseFault} (h : I p) (hf : p.MayReport fault) :
    E ⟨p.lexer.input, p.lexer.offset, fault⟩ p

section Steps

variable (hI : Guides I E)
include hI

theorem leads_unexpected (x : Expectation) : Leads I E (unexpected x : ParserM α) :=
  fun _ h => hI.report h rfl

theorem leads_expect (t : Token) (x : Expectation) : Leads I E (expect t x) := by
  refine leads_get_bind fun p => ?_
  split
  · exact hI.advance
  · exact leads_unexpected hI x

theorem leads_skip (t : Token) : Leads I E (skip t) := by
  refine leads_get_bind fun p => ?_
  split
  · exact leads_bind hI.advance fun _ => leads_pure true
  · exact leads_pure false

theorem leads_count : Leads I E count := by
  refine leads_get_bind fun p => ?_
  split
  · split
    · exact leads_bind hI.advance fun _ => leads_pure _
    · exact fun _ h => hI.report h trivial
  · exact leads_unexpected hI .count

theorem leads_range : Leads I E range := by
  refine leads_bind (leads_count hI) fun least => leads_bind (leads_skip hI .comma) fun comma => ?_
  have hclose (most : UInt32) : Leads I E
      (do
        if most < least then
          fail (.inverted least most)
        expect .closeBrace .closeBrace
        return Multiplier.counted least most : ParserM Multiplier) := by
    have htail := leads_bind (leads_expect hI .closeBrace .closeBrace) fun _ =>
      leads_pure (Multiplier.counted least most)
    split
    · exact leads_bind (fun _ h => hI.report h trivial) fun _ => htail
    · exact htail
  cases comma with
  | true => exact leads_bind (leads_count hI) hclose
  | false => exact leads_bind (leads_pure least) hclose

theorem leads_multiplier? : Leads I E multiplier? := by
  refine leads_get_bind fun p => ?_
  split
  case h_5 =>
    exact leads_bind hI.advance fun _ => leads_bind (leads_range hI) fun _ => leads_pure _
  case h_6 => exact leads_pure none
  all_goals exact leads_bind hI.advance fun _ => leads_pure _

variable {inner operand : ParserM Expr}

theorem leads_term (hi : Leads I E inner) : Leads I E (term inner) := by
  refine leads_get_bind fun p => ?_
  split
  case h_5 =>
    exact leads_bind hI.consume fun _ => leads_bind hi fun _ =>
      leads_bind (leads_expect hI _ _) fun _ => leads_pure _
  case h_6 => exact leads_unexpected hI .term
  all_goals exact leads_bind hI.consume fun _ => leads_pure _

theorem leads_factor (hi : Leads I E inner) : Leads I E (factor inner) := by
  refine leads_bind (leads_term hI hi) fun body => leads_bind (leads_multiplier? hI) fun m => ?_
  cases m with
  | none => exact leads_pure body
  | some m => exact leads_pure _

theorem leads_continues (c : Combinator) : Leads I E (continues c) := by
  cases c with
  | juxtaposition => exact leads_get_bind fun p => leads_pure _
  | allOf | anyOf | oneOf => exact leads_skip hI _

theorem leads_operands (c : Combinator) (ho : Leads I E operand) :
    ∀ bound, Leads I E (operands c operand bound)
  | 0 => leads_bind ho fun _ => leads_pure _
  | bound + 1 => by
    refine leads_bind ho fun first => leads_bind (leads_continues hI c) fun more => ?_
    cases more with
    | true => exact leads_bind (leads_operands c ho bound) fun _ => leads_pure _
    | false => exact leads_pure _

theorem leads_level (c : Combinator) (bound : Nat) (ho : Leads I E operand) :
    Leads I E (level c bound operand) :=
  leads_bind (leads_operands hI c ho bound) fun _ => leads_pure _

theorem leads_expressionWithin : ∀ bound, Leads I E (expressionWithin bound)
  | 0 => leads_unexpected hI .term
  | bound + 1 =>
    leads_level hI .anyOf bound <| leads_level hI .oneOf bound <| leads_level hI .allOf bound <|
      leads_level hI .juxtaposition bound <| leads_factor hI <| leads_expressionWithin bound

/-- Reading an expression leads where moving on does. -/
theorem leads_expression : Leads I E expression :=
  leads_get_bind fun p => leads_expressionWithin hI (p.remaining + 1)

/-- Reading up to the end of the input leads where moving on does. -/
theorem leads_whole : Leads I E whole := by
  refine leads_bind (leads_expression hI) fun e => leads_get_bind fun p => ?_
  split
  · exact leads_pure e
  · exact leads_unexpected hI .operatorOrEnd

/-- **A request leads where moving on does.** -/
theorem leads_request (r : Request) : Leads I E r.steps := by
  cases r with
  | whole => exact leads_whole hI
  | expression => exact leads_expression hI

end Steps

/-! ## What steps keep -/

/-- **Steps keep a property** of parsers: they lead from parsers that have it to such parsers, also
when they fail. -/
def Keeps (I : Parser → Prop) (steps : ParserM α) : Prop := ∀ p, I p → I (p.perform steps).2

theorem keeps_iff_leads {steps : ParserM α} : Keeps I steps ↔ Leads I (fun _ => I) steps := by
  refine forall₂_congr fun p _ => ?_
  unfold perform
  cases steps.run p <;> exact Iff.rfl

/-- **A steady property**: moving on keeps it, and so does consuming a token. -/
structure Steady (I : Parser → Prop) : Prop where
  advance : Keeps I advance
  consume : Keeps I consume

theorem keeps_request (hI : Steady I) (r : Request) : Keeps I r.steps :=
  keeps_iff_leads.mpr (leads_request
    { advance := keeps_iff_leads.mp hI.advance
      consume := keeps_iff_leads.mp hI.consume
      report := fun h _ => h } r)

/-- **Any number of requests** keep what moving on keeps. -/
theorem inv_after (hI : Steady I) {p : Parser} (h : I p) (rs : List Request) : I (p.after rs) := by
  induction rs generalizing p with
  | nil => exact h
  | cons r rs ih => exact ih (keeps_request hI r p h)

/-! ## Lexable tokens -/

variable {p q : Parser} {e : Expr}

/-- Whether the current token is lexable, and so are all that the lexer has left. -/
def HasLexable (p : Parser) : Prop := p.current.Lexable ∧ p.lexer.upcoming.All Token.Lexable

theorem hasLexable_of_advance (h : p.lexer.upcoming.All Token.Lexable)
    (hc : p.current.Lexable) : HasLexable (p.perform advance).2 := by
  unfold perform
  cases hu : p.lexer.upcoming with
  | token t offset rest =>
    rw [advance_of_token hu]
    rw [hu] at h
    exact h
  | finished length =>
    rw [advance_of_finished hu]
    exact ⟨trivial, trivial⟩
  | fault error =>
    rw [advance_of_fault hu]
    exact ⟨hc, trivial⟩

theorem steady_hasLexable : Steady HasLexable where
  advance _ h := hasLexable_of_advance h.2 h.1
  consume p h := hasLexable_of_advance (p := { p with current := .endOfInput }) h.2 trivial

theorem lexable_of_passes {ts : List Token} (h : Passes p ts q) (hp : HasLexable p) :
    ∀ t ∈ ts, t.Lexable := by
  induction h with
  | nil => exact List.forall_mem_nil _
  | @cons p p' q t ts hc ht ha h ih =>
    have hp' : HasLexable (p.perform advance).2 := steady_hasLexable.advance p hp
    rw [perform, ha] at hp'
    exact List.forall_mem_cons.mpr ⟨hc ▸ hp.1, ih hp'⟩

/-- What a parser with lexable tokens answers is canonical. -/
theorem canonical_of_perform (hp : HasLexable p) {r : Request}
    (h : (p.perform r.steps).1 = .ok e) : Canonical e := by
  obtain ⟨q, h⟩ := perform_ok_iff.mp h
  cases r with
  | whole =>
    obtain ⟨ts, hd, hts, -⟩ := whole_ok_iff.mp h
    exact canonical_of_derives hd (lexable_of_passes hts hp)
  | expression =>
    rw [Request.steps, run_expression] at h
    obtain ⟨ts, hts, hd⟩ := (reads_expressionWithin _).sound h
    exact canonical_of_derives hd (lexable_of_passes hts hp)

theorem hasLexable_of_ofLexer {l : Lexer} (hl : l.upcoming.All Token.Lexable)
    (h : ofLexer l = .ok p) : HasLexable p := by
  unfold ofLexer Lexer.next at h
  cases hu : l.upcoming with
  | token t offset rest =>
    rw [hu] at h hl
    cases h
    exact hl
  | finished length =>
    rw [hu] at h
    cases h
    exact ⟨trivial, trivial⟩
  | fault error =>
    rw [hu] at h
    cases h

end Parser

/-! ## Lexers that have moved on -/

/-- A lexer that has been asked for some tokens. -/
def Lexer.after (l : Lexer) : Nat → Lexer
  | 0 => l
  | n + 1 => l.next.2.after n

theorem Lexer.all_after {P : Token → Prop} {l : Lexer} (h : l.upcoming.All P) (n : Nat) :
    (l.after n).upcoming.All P := by
  induction n generalizing l with
  | zero => exact h
  | succ n ih =>
    refine ih ?_
    unfold next
    cases hu : l.upcoming with
    | token t offset rest => rw [hu] at h; exact h.2
    | finished length => rw [hu] at h; exact h
    | fault error => rw [hu] at h; exact h

/-! ## The shape of all answers -/

/-- Whether no operand of an expression has the expression's own combinator. -/
def Expr.IsFlat : Expr → Prop
  | .combined c operands => ∀ o ∈ operands, ∀ inner, o ≠ .combined c inner
  | .leaf _ | .group _ | .multiplied .. => True

theorem isFlat_of_looseness {c : Combinator} {operands : List Expr}
    (h : ∀ o ∈ operands, o.looseness < c.looseness) : (Expr.combined c operands).IsFlat := by
  rintro o ho inner rfl
  exact Nat.lt_irrefl _ (h _ ho)

/-- Where operands are tighter, no combinator stands directly inside itself. -/
theorem flat_of_shaped {IsBody : Expr → Prop} {e : Expr} (h : Shaped IsBody e) :
    e.Everywhere Expr.IsFlat := by
  induction h with
  | leaf _ => exact Expr.everywhere_leaf.mpr trivial
  | group _ ih => exact Expr.everywhere_group.mpr ⟨trivial, ih⟩
  | multiplied _ _ _ ih => exact Expr.everywhere_multiplied.mpr ⟨trivial, ih⟩
  | combined _ hl _ ih => exact Expr.everywhere_combined.mpr ⟨isFlat_of_looseness hl, ih⟩

/-- **The shape of what is parsed.** An expression that an input denotes is canonical, so none of
its combinators stands directly inside itself. The same holds of whatever a parser answers, at any
place of an input, after any earlier requests. -/
theorem canonical_of_request :
    (∀ (input : String) (e : Expr), Expr.parse input = .ok e →
      Canonical e ∧ e.Everywhere Expr.IsFlat) ∧
    ∀ (input : String) (skipped : Nat) (p : Parser),
      Parser.ofLexer ((Lexer.ofInput input).after skipped) = .ok p →
      ∀ (earlier : List Parser.Request) (r : Parser.Request) (e : Expr),
        ((p.after earlier).perform r.steps).1 = .ok e →
        Canonical e ∧ e.Everywhere Expr.IsFlat := by
  constructor
  · intro input e h
    have hc := canonical_of_parse h
    exact ⟨hc, flat_of_shaped hc⟩
  · intro input skipped p hp earlier r e h
    have hscan : (Lexer.ofInput input).upcoming.All Token.Lexable :=
      scanFrom_all lexable_of_split? 0 input.toList
    have hstart := Parser.hasLexable_of_ofLexer (Lexer.all_after hscan skipped) hp
    have hafter := Parser.inv_after Parser.steady_hasLexable hstart earlier
    have hc := Parser.canonical_of_perform hafter h
    exact ⟨hc, flat_of_shaped hc⟩

/-- A lexer has moved past a comma, and the parser on it has failed inside a range. Asked again, it
answers what stands behind, which is canonical though it is no expression of the whole input. -/
theorem canonical_of_request_behind_range :
    (∃ e, Expr.parse "a b\x7b2\x7d || c" = .ok e ∧ Canonical e ∧ e.Everywhere Expr.IsFlat) ∧
    ∃ p, Parser.ofLexer ((Lexer.ofInput ", a\x7b1 [b | \x27c\x27]#").after 1) = .ok p ∧
      (p.perform Parser.whole).1 = .error ⟨", a\x7b1 [b | \x27c\x27]#", 6,
        .unexpected .closeBrace .openBracket⟩ ∧
      ((p.after [.whole]).perform Parser.expression).1 = .ok (.multiplied (.group
        (.combined .oneOf [.leaf (.identifier "b"), .leaf (.quoted "c")])) .commaSeparated) ∧
      Canonical (.multiplied (.group
        (.combined .oneOf [.leaf (.identifier "b"), .leaf (.quoted "c")])) .commaSeparated) := by
  have hparse : Expr.parse "a b\x7b2\x7d || c" = .ok (.combined .anyOf [.combined .juxtaposition
      [.leaf (.identifier "a"), .multiplied (.leaf (.identifier "b")) (.counted 2 2)],
        .leaf (.identifier "c")]) := by
    decide +kernel
  have hfails : (Parser.ofLexer ((Lexer.ofInput ", a\x7b1 [b | \x27c\x27]#").after 1)).map
      (fun p => (p.perform Parser.whole).1) = .ok (.error ⟨", a\x7b1 [b | \x27c\x27]#", 6,
        .unexpected .closeBrace .openBracket⟩) := by
    decide +kernel
  have hanswers : (Parser.ofLexer ((Lexer.ofInput ", a\x7b1 [b | \x27c\x27]#").after 1) >>=
      fun p => ((p.after [.whole]).perform Parser.expression).1) = .ok (.multiplied (.group
        (.combined .oneOf [.leaf (.identifier "b"), .leaf (.quoted "c")])) .commaSeparated) := by
    decide +kernel
  obtain ⟨p, hp, hanswer⟩ := bind_eq_ok_iff.mp hanswers
  rw [hp] at hfails
  exact ⟨⟨_, hparse, canonical_of_request.1 _ _ hparse⟩, p, hp, Except.ok.inj hfails, hanswer,
    (canonical_of_request.2 _ 1 p hp [.whole] .expression _ hanswer).1⟩

end ValueGrammar
