import ValueGrammar.Proofs.Failing

/-!
# Parsers in lockstep

Two parsers are abreast if passing the same tokens leads each to a goal of its own, and both goals
have the same current token. As long as the first one does not overrun its goal, by moving past it
or by meeting a lexical fault behind it, the second one takes the same steps: it gives the same
answers, and fails for the same reason. What comes behind the goals does not matter, nor does how
deep brackets may be nested, if that is enough for the tokens in front.

So a parser that fails at a token that it did not expect fails there whatever comes behind, and the
tokens up to this one begin no expression.

Headlines:
* **`Lockstep.bind`**: steps in lockstep, one after the other, are in lockstep.
* **`lockstep_expressionWithin`**: reading expressions is in lockstep, within any two bounds.
* **`not_spells_of_unexpected`**: the tokens up to an unexpected one begin no expression.
-/

namespace ValueGrammar.Parser

variable {α β : Type} {p p' q goal goal' : Parser} {err : ParseError} {n m l : Nat}

/-! ## What is left -/

/-- The number of tokens that are left; at the end of the input the current one does not count. -/
def left (p : Parser) : Nat := p.lexer.upcoming.length + if p.current = .endOfInput then 0 else 1

theorem upcoming_le_left (p : Parser) : p.lexer.upcoming.length ≤ p.left := Nat.le_add_right _ _

theorem upcoming_lt_left (h : p.current ≠ .endOfInput) : p.lexer.upcoming.length < p.left := by
  rw [left, if_neg h]
  exact Nat.lt_succ_self _

/-- After a move no more is left than the lexer had; where it fails, the fault is lexical. -/
theorem ends_advance (p : Parser) : Ends (fun q => q.left ≤ p.lexer.upcoming.length)
    (fun err _ => ∃ e, err.fault = .lexical e) (advance.run p) := by
  cases hu : p.lexer.upcoming with
  | token t offset rest =>
    rw [advance_of_token hu]
    show rest.length + (if t = .endOfInput then 0 else 1) ≤ rest.length + 1
    split <;> omega
  | finished length =>
    rw [advance_of_finished hu]
    exact Nat.le_refl 0
  | fault e =>
    rw [advance_of_fault hu]
    exact ⟨e, rfl⟩

/-! ## Parsers abreast -/

/-- Whether less is left to a parser than to a goal. -/
def Past (goal p : Parser) : Prop := p.left < goal.left

/-- Whether an error lies past a goal, or is a lexical one. -/
def Overruns (goal : Parser) (err : ParseError) (q : Parser) : Prop :=
  Past goal q ∨ ∃ e, err.fault = .lexical e

/-- **Two parsers are abreast** if the same tokens, fewer than `n`, lead each to its goal. -/
def Abreast (goal goal' : Parser) (n : Nat) (p p' : Parser) : Prop :=
  ∃ ts : List Token, ts.length < n ∧ Passes p ts goal ∧ Passes p' ts goal'

/-- Whether a run matches another one: it overruns the goal, or both give the same answer and leave
parsers abreast, or both fail for the same reason. -/
def Matches (goal goal' : Parser) (n : Nat) :
    EStateM.Result ParseError Parser α → EStateM.Result ParseError Parser α → Prop
  | .ok a q, r => Past goal q ∨ ∃ q', r = .ok a q' ∧ Abreast goal goal' n q q'
  | .error err q, r =>
    Overruns goal err q ∨ ∃ err' q', r = .error err' q' ∧ err'.fault = err.fault

/-- **Steps in lockstep**: past the goal they stay there, and from parsers abreast they run alike,
down from fewer than `n` tokens to fewer than `m`. -/
structure Lockstep (goal goal' : Parser) (n m : Nat) (x x' : ParserM α) : Prop where
  leads : Leads (Past goal) (Overruns goal) x
  along {p p' : Parser} (h : Abreast goal goal' n p p') :
    Matches goal goal' m (x.run p) (x'.run p')

/-- A move leads past a goal if less was upcoming than is left to the goal. -/
theorem ends_advance_past (h : p.lexer.upcoming.length < goal.left) :
    Ends (Past goal) (Overruns goal) (advance.run p) := by
  have hends := ends_advance p
  cases hrun : advance.run p with
  | ok u q =>
    rw [hrun] at hends
    exact Nat.lt_of_le_of_lt hends h
  | error err q =>
    rw [hrun] at hends
    exact .inr hends

theorem guides_past : Guides (Past goal) (Overruns goal) where
  advance p h := ends_advance_past (Nat.lt_of_le_of_lt (upcoming_le_left p) h)
  consume p h := ends_advance_past (p := { p with current := .endOfInput })
    (Nat.lt_of_le_of_lt (upcoming_le_left p) h)
  report h _ := .inl h

theorem matches_of_ends {r r' : EStateM.Result ParseError Parser α}
    (h : Ends (Past goal) (Overruns goal) r) : Matches goal goal' n r r' := by
  cases r with
  | ok a q => exact .inl h
  | error err q => exact .inl h

theorem abreast_mono (h : Abreast goal goal' n p p') (hle : n ≤ m) : Abreast goal goal' m p p' := by
  obtain ⟨ts, hlen, hp⟩ := h
  exact ⟨ts, Nat.lt_of_lt_of_le hlen hle, hp⟩

/-! ## Steps in lockstep -/

namespace Lockstep

/-- No parsers are abreast with no token to spare. -/
theorem of_leads {x x' : ParserM α} (hn : n = 0) (h : Leads (Past goal) (Overruns goal) x) :
    Lockstep goal goal' n m x x' where
  leads := h
  along {p p'} hp := by
    obtain ⟨ts, hlen, -⟩ := hp
    exact absurd hlen (by omega)

theorem mono {x x' : ParserM α} (h : Lockstep goal goal' n m x x') (hle : m ≤ l) :
    Lockstep goal goal' n l x x' where
  leads := h.leads
  along {p p'} hp := by
    have hm := h.along hp
    cases hrun : x.run p with
    | ok a q =>
      rw [hrun] at hm
      exact hm.imp_right fun ⟨q', hq', hab⟩ => ⟨q', hq', abreast_mono hab hle⟩
    | error err q =>
      rw [hrun] at hm
      exact hm

theorem pure (a : α) : Lockstep goal goal' n n (Pure.pure a) (Pure.pure a) where
  leads := leads_pure a
  along hp := .inr ⟨_, rfl, hp⟩

/-- **Steps in lockstep, one after the other**, are in lockstep. -/
theorem bind {x x' : ParserM α} {f f' : α → ParserM β} (hx : Lockstep goal goal' n m x x')
    (hf : ∀ a, Lockstep goal goal' m l (f a) (f' a)) :
    Lockstep goal goal' n l (x >>= f) (x' >>= f') where
  leads := leads_bind hx.leads fun a => (hf a).leads
  along {p p'} hp := by
    have hm := hx.along hp
    rw [EStateM.run_bind, EStateM.run_bind]
    cases hrun : x.run p with
    | ok a q =>
      rw [hrun] at hm
      rcases hm with hpast | ⟨q', hq', hq⟩
      · exact matches_of_ends ((hf a).leads q hpast)
      · rw [hq']
        exact (hf a).along hq
    | error err q =>
      rw [hrun] at hm
      rcases hm with hover | ⟨err', q', hq', hfault⟩
      · exact .inl hover
      · rw [hq']
        exact .inr ⟨err', q', rfl, hfault⟩

end Lockstep

theorem lockstep_fail (fault : ParseFault) :
    Lockstep goal goal' n m (fail fault : ParserM α) (fail fault) where
  leads _ h := .inl h
  along _ := .inr ⟨_, _, rfl, rfl⟩

/-- A move leads on from parsers abreast, or past the goal. -/
theorem lockstep_move {move : ParserM Unit} (hleads : Leads (Past goal) (Overruns goal) move)
    (hends : Ends (Past goal) (Overruns goal) (move.run goal))
    (hpass : ∀ {p q : Parser} {t : Token}, p.current = t → t ≠ .endOfInput →
      (move.run p = .ok () q ↔ Passes p [t] q)) :
    Lockstep goal goal' n (n - 1) move move where
  leads := hleads
  along {p p'} hp := by
    obtain ⟨ts, hlen, hp, hp'⟩ := hp
    cases ts with
    | nil =>
      obtain rfl := passes_nil_iff.mp hp
      exact matches_of_ends hends
    | cons t ts =>
      obtain ⟨q, hq, hts⟩ := passes_cons_iff.mp hp
      obtain ⟨q', hq', hts'⟩ := passes_cons_iff.mp hp'
      obtain ⟨hc, ht, -⟩ := passes_singleton_iff.mp hq
      rw [(hpass hc ht).mpr hq, (hpass (current_of_passes hq') ht).mpr hq']
      rw [List.length_cons] at hlen
      exact .inr ⟨q', rfl, ts, by omega, hts, hts'⟩

section Goals

variable (hgoal : goal.current ≠ .endOfInput)

section Moves

include hgoal

theorem lockstep_advance : Lockstep goal goal' n (n - 1) advance advance :=
  lockstep_move guides_past.advance (ends_advance_past (upcoming_lt_left hgoal))
    fun hc ht => ⟨fun ha => passes_singleton_iff.mpr ⟨hc, ht, ha⟩,
      fun hp => (passes_singleton_iff.mp hp).2.2⟩

theorem lockstep_consume : Lockstep goal goal' n (n - 1) consume consume :=
  lockstep_move guides_past.consume
    (ends_advance_past (p := { goal with current := .endOfInput }) (upcoming_lt_left hgoal))
    fun hc ht => consume_ok_iff hc ht

theorem lockstep_advance_pure (a : α) : Lockstep goal goal' n n
    (do advance; return a : ParserM α) (do advance; return a) :=
  (lockstep_advance hgoal).bind fun _ => (Lockstep.pure a).mono (Nat.sub_le n 1)

end Moves

variable (hcurrent : goal'.current = goal.current)
include hcurrent

theorem current_of_abreast (h : Abreast goal goal' n p p') : p'.current = p.current := by
  obtain ⟨ts, -, hp, hp'⟩ := h
  cases hp with
  | nil => exact passes_nil_iff.mp hp' ▸ hcurrent
  | cons hc => exact (current_of_passes hp').trans hc.symm

/-- Parsers abreast have the same current token. -/
theorem lockstep_get_bind {f f' : Parser → ParserM α}
    (h : ∀ p p' : Parser, p'.current = p.current → Lockstep goal goal' n m (f p) (f' p')) :
    Lockstep goal goal' n m (get >>= f) (get >>= f') where
  leads p := (h p p rfl).leads p
  along {p p'} hp := (h p p' (current_of_abreast hcurrent hp)).along hp

theorem lockstep_unexpected (x : Expectation) :
    Lockstep goal goal' n m (unexpected x : ParserM α) (unexpected x) := by
  refine lockstep_get_bind hcurrent fun p p' h => ?_
  rw [h]
  exact lockstep_fail _

include hgoal

theorem lockstep_expect (t : Token) (x : Expectation) :
    Lockstep goal goal' n n (expect t x) (expect t x) := by
  refine lockstep_get_bind hcurrent fun p p' h => ?_
  rw [h]
  split
  · exact (lockstep_advance hgoal).mono (Nat.sub_le n 1)
  · exact lockstep_unexpected hcurrent x

theorem lockstep_skip (t : Token) : Lockstep goal goal' n n (skip t) (skip t) := by
  refine lockstep_get_bind hcurrent fun p p' h => ?_
  rw [h]
  split
  · exact lockstep_advance_pure hgoal true
  · exact .pure false

theorem lockstep_count : Lockstep goal goal' n n count count := by
  refine lockstep_get_bind hcurrent fun p p' h => ?_
  rw [h]
  cases p.current with
  | number text =>
    dsimp only
    cases count? text with
    | some k => exact lockstep_advance_pure hgoal k
    | none => exact lockstep_fail _
  | _ => exact lockstep_unexpected hcurrent .count

theorem lockstep_range : Lockstep goal goal' n n range range := by
  refine (lockstep_count hgoal hcurrent).bind fun least =>
    (lockstep_skip hgoal hcurrent .comma).bind fun comma => ?_
  have hclose (most : UInt32) : Lockstep goal goal' n n
      (do
        if most < least then
          fail (.inverted least most)
        expect .closeBrace .closeBrace
        return Multiplier.counted least most : ParserM Multiplier)
      (do
        if most < least then
          fail (.inverted least most)
        expect .closeBrace .closeBrace
        return Multiplier.counted least most : ParserM Multiplier) := by
    have htail : Lockstep goal goal' n n _ _ :=
      (lockstep_expect hgoal hcurrent .closeBrace .closeBrace).bind fun _ =>
        .pure (Multiplier.counted least most)
    split
    · exact (lockstep_fail _).bind fun _ => htail
    · exact htail
  cases comma with
  | true => exact (lockstep_count hgoal hcurrent).bind hclose
  | false => exact (Lockstep.pure least).bind hclose

theorem lockstep_multiplier? : Lockstep goal goal' n n multiplier? multiplier? := by
  refine lockstep_get_bind hcurrent fun p p' h => ?_
  rw [h]
  cases p.current with
  | star | plus | question | hash => exact lockstep_advance_pure hgoal _
  | openBrace =>
    exact ((lockstep_advance hgoal).mono (Nat.sub_le n 1)).bind fun _ =>
      (lockstep_range hgoal hcurrent).bind fun m => .pure (some m)
  | _ => exact .pure none

/-! ## Expressions in lockstep -/

variable {inner inner' operand operand' : ParserM Expr}

/-- A term takes at least one token, and what stands in brackets one less. -/
theorem lockstep_term (hi : Lockstep goal goal' (n - 1) (n - 1) inner inner') :
    Lockstep goal goal' n (n - 1) (term inner) (term inner') := by
  refine lockstep_get_bind hcurrent fun p p' h => ?_
  rw [h]
  cases p.current with
  | identifier | number | typeRef | quoted =>
    exact (lockstep_consume hgoal).bind fun _ => .pure _
  | openBracket =>
    exact (lockstep_consume hgoal).bind fun _ => hi.bind fun body =>
      (lockstep_expect hgoal hcurrent _ _).bind fun _ => .pure (Expr.group body)
  | _ => exact lockstep_unexpected hcurrent .term

theorem lockstep_factor (hi : Lockstep goal goal' (n - 1) (n - 1) inner inner') :
    Lockstep goal goal' n (n - 1) (factor inner) (factor inner') := by
  refine (lockstep_term hgoal hcurrent hi).bind fun body =>
    (lockstep_multiplier? hgoal hcurrent).bind fun m => ?_
  cases m with
  | none => exact .pure body
  | some m => exact .pure _

theorem lockstep_continues (c : Combinator) :
    Lockstep goal goal' n n (continues c) (continues c) := by
  cases c with
  | juxtaposition =>
    refine lockstep_get_bind hcurrent fun p p' h => ?_
    rw [h]
    exact .pure _
  | allOf | anyOf | oneOf => exact lockstep_skip hgoal hcurrent _

/-- Each operand takes at least one token, so a bound is enough that the tokens do not exceed. -/
theorem lockstep_operands (c : Combinator) : ∀ {bound bound' n : Nat},
    n ≤ bound + 1 → n ≤ bound' + 1 →
      (∀ k ≤ n, Lockstep goal goal' k (k - 1) operand operand') →
        Lockstep goal goal' n (n - 1) (operands c operand bound) (operands c operand' bound')
  | 0, bound', n, hb, _, ho => by
    have hfirst := ho n (Nat.le_refl n)
    cases bound' <;> exact hfirst.bind fun first => .of_leads (by omega) (leads_pure [first])
  | bound + 1, 0, n, _, hb', ho => by
    have hfirst := ho n (Nat.le_refl n)
    refine hfirst.bind fun first => .of_leads (by omega) ?_
    refine leads_bind (leads_continues guides_past c) fun more => ?_
    cases more with
    | true =>
      exact leads_bind (leads_operands guides_past c hfirst.leads bound) fun _ => leads_pure _
    | false => exact leads_pure [first]
  | bound + 1, bound' + 1, n, hb, hb', ho => by
    refine (ho n (Nat.le_refl n)).bind fun first =>
      (lockstep_continues hgoal hcurrent c).bind fun more => ?_
    cases more with
    | true =>
      have hmore : Lockstep goal goal' (n - 1) (n - 1 - 1) (operands c operand bound)
          (operands c operand' bound') :=
        lockstep_operands c (by omega) (by omega) fun k hk => ho k (by omega)
      exact (hmore.mono (Nat.sub_le _ 1)).bind fun es => .pure (first :: es)
    | false => exact .pure [first]

theorem lockstep_level (c : Combinator) {bound bound' : Nat} (hb : n ≤ bound + 1)
    (hb' : n ≤ bound' + 1) (ho : ∀ k ≤ n, Lockstep goal goal' k (k - 1) operand operand') :
    Lockstep goal goal' n (n - 1) (level c bound operand) (level c bound' operand') :=
  (lockstep_operands hgoal hcurrent c hb hb' ho).bind fun es => .pure (c.collect es)

/-- **Reading expressions is in lockstep**, within any two bounds that the tokens do not exceed. -/
theorem lockstep_expressionWithin : ∀ {bound bound' n : Nat}, n ≤ bound → n ≤ bound' →
    Lockstep goal goal' n (n - 1) (expressionWithin bound) (expressionWithin bound')
  | 0, _, _, hb, _ => .of_leads (Nat.le_zero.mp hb) (leads_expressionWithin guides_past 0)
  | bound + 1, 0, _, _, hb' =>
    .of_leads (Nat.le_zero.mp hb') (leads_expressionWithin guides_past (bound + 1))
  | bound + 1, bound' + 1, n, hb, hb' => by
    have hinner (k : Nat) (hk : k ≤ n) : Lockstep goal goal' (k - 1) (k - 1 - 1)
        (expressionWithin bound) (expressionWithin bound') :=
      lockstep_expressionWithin (by omega) (by omega)
    have loosen {x x' : ParserM Expr} (c : Combinator)
        (h : ∀ k ≤ n, Lockstep goal goal' k (k - 1) x x') :
        ∀ k ≤ n, Lockstep goal goal' k (k - 1) (level c bound x) (level c bound' x') :=
      fun k hk => lockstep_level hgoal hcurrent c (Nat.le_trans hk hb) (Nat.le_trans hk hb')
        fun j hj => h j (Nat.le_trans hj hk)
    exact loosen .anyOf (loosen .oneOf <| loosen .allOf <| loosen .juxtaposition fun k hk =>
      lockstep_factor hgoal hcurrent ((hinner k hk).mono (Nat.sub_le _ 1))) n (Nat.le_refl n)

/-- **Parsers abreast read a whole input alike**, as far as the first does not overrun its goal. -/
theorem matches_whole {ts : List Token} (hp : Passes p ts goal) (hp' : Passes p' ts goal') :
    Matches goal goal' (ts.length + 1) (whole.run p) (whole.run p') := by
  have hexpr : Lockstep goal goal' (ts.length + 1) _ (expressionWithin (p.remaining + 1))
      (expressionWithin (p'.remaining + 1)) :=
    lockstep_expressionWithin hgoal hcurrent (Nat.succ_le_succ (length_le_remaining hp))
      (Nat.succ_le_succ (length_le_remaining hp'))
  have hend (e : Expr) : Lockstep goal goal' (ts.length + 1) (ts.length + 1)
      (do if (← get).current = .endOfInput then return e else unexpected .operatorOrEnd)
      (do if (← get).current = .endOfInput then return e else unexpected .operatorOrEnd) := by
    refine lockstep_get_bind hcurrent fun p p' h => ?_
    rw [h]
    split
    · exact .pure e
    · exact lockstep_unexpected hcurrent .operatorOrEnd
  have hmatches := ((hexpr.mono (Nat.sub_le _ 1)).bind hend).along ⟨ts, Nat.lt_succ_self _, hp, hp'⟩
  rw [EStateM.run_bind, EStateM.run_bind, ← run_expression, ← run_expression] at hmatches
  rw [whole, EStateM.run_bind, EStateM.run_bind]
  exact hmatches

end Goals

/-! ## What cannot follow -/

/-- **The tokens up to an unexpected one begin no expression**: with any others behind them, a
parser would fail at the same place. -/
theorem not_spells_of_unexpected {ts us : List Token} {x : Expectation} {t : Token} {d : Expr}
    (hp : Passes p ts q) (hrun : whole.run p = .error err q) (hfault : err.fault = .unexpected x t)
    (hq : q.current = t) (ht : t ≠ .endOfInput) : ¬ Spells (ts ++ t :: us) d := by
  intro hd
  obtain ⟨first, rest, hts, -⟩ := exists_startsTerm hd
  have hall := ne_endOfInput_of_derives hd
  rw [hts] at hall hd
  obtain ⟨hfirst, hrest⟩ := List.forall_mem_cons.mp hall
  -- a parser that is handed these tokens reads them up to the end
  let p' : Parser := ⟨⟨"", 0, Scan.ofTokens rest⟩, first⟩
  obtain ⟨r, hr, hend⟩ := (passes_to_end_iff (p := p') hfirst (all_ofTokens hrest)).mpr
    ⟨rest, tokens_ofTokens rest, rfl⟩
  have hok : whole.run p' = .ok d r := whole_ok_iff.mpr ⟨_, hd, hr, hend⟩
  have hr : Passes p' (ts ++ t :: us) r := hts ▸ hr
  obtain ⟨q', hp', htail⟩ := passes_append_iff.mp hr
  have hcurrent : q'.current = q.current := (current_of_passes htail).trans hq.symm
  have hmatches := matches_whole (hq ▸ ht) hcurrent hp hp'
  rw [hrun] at hmatches
  rcases hmatches with (hpast | ⟨e, he⟩) | ⟨err', q', herr, -⟩
  · exact Nat.lt_irrefl _ hpast
  · rw [hfault] at he
    cases he
  · rw [hok] at herr
    cases herr

end ValueGrammar.Parser
