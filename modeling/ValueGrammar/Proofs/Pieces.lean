import ValueGrammar.Proofs.Parsing
import ValueGrammar.Proofs.Shape

/-!
# The pieces of a text

Scanning keeps the tokens of a text only. Its pieces are all the lexemes that are cut off, blanks
and comments among them, each with its pattern. A text that is cut up to its end is the text of its
pieces, and an expression is read from the tokens of the pieces.

A piece other than a comment is also cut off in front of another rest, if that begins with the same
character or with a bracket: what a pattern takes never depends on more. The one that looks further
is the fraction of a numeral, behind a point; but no text that is cut up to its end begins with one.

Headlines:
* **`parse_ok_iff_pieces`**: an expression is read from the tokens of the pieces of an input.
* **`first?_of_beginsLike`**: a piece is cut off in front of another rest.
* **`Cuttable.append`**: in front of a bracket, a text is cut into its own pieces.
-/

namespace ValueGrammar

/-! ## Pieces -/

/-- A lexeme and its pattern. -/
structure Piece where
  pattern : Pattern
  text : List Char
  deriving DecidableEq

/-- The token of a piece; blanks and comments have none. -/
def Piece.token? (p : Piece) : Option Token := p.pattern.token? p.text

/-- The pieces of a text, up to its end or the first character at which no pattern matches. -/
def pieces (cs : List Char) : List Piece :=
  match _h : Pattern.first? cs with
  | none => []
  | some (p, lexeme, rest) => ⟨p, lexeme⟩ :: pieces rest
termination_by cs.length
decreasing_by exact Pattern.length_lt_of_first? _h

/-- Whether a text is cut into pieces up to its end. -/
inductive Cuttable : List Char → Prop
  | nil : Cuttable []
  | cons {p : Pattern} {cs lexeme rest : List Char}
      (h : Pattern.first? cs = some (p, lexeme, rest)) (hr : Cuttable rest) : Cuttable cs

/-- The tokens of some pieces. -/
def tokensOf (ps : List Piece) : List Token := ps.filterMap Piece.token?

variable {p : Pattern} {cs ds lexeme rest rest' : List Char} {ts : List Token}

@[simp] theorem pieces_nil : pieces [] = [] := by
  rw [pieces]
  rfl

theorem pieces_of_first? (h : Pattern.first? cs = some (p, lexeme, rest)) :
    pieces cs = ⟨p, lexeme⟩ :: pieces rest := by
  rw [pieces]
  split
  · simp_all
  · rename_i h'
    rw [h] at h'
    cases h'
    rfl

theorem append_of_first? (h : Pattern.first? cs = some (p, lexeme, rest)) : lexeme ++ rest = cs :=
  Pattern.append_of_split? (Pattern.split?_of_first? h)

/-- A text that is cut up to its end is the text of its pieces. -/
theorem flatMap_text_pieces (h : Cuttable cs) : (pieces cs).flatMap Piece.text = cs := by
  induction h with
  | nil => simp
  | cons h _ ih => rw [pieces_of_first? h, List.flatMap_cons, ih, append_of_first? h]

theorem tokensOf_cons_none {p : Piece} {ps : List Piece} (h : p.token? = none) :
    tokensOf (p :: ps) = tokensOf ps :=
  List.filterMap_cons_none h

theorem tokensOf_cons_some {p : Piece} {ps : List Piece} {t : Token} (h : p.token? = some t) :
    tokensOf (p :: ps) = t :: tokensOf ps :=
  List.filterMap_cons_some h

theorem tokensOf_append (ps qs : List Piece) : tokensOf (ps ++ qs) = tokensOf ps ++ tokensOf qs :=
  List.filterMap_append

theorem lexed_pieces (h : Cuttable cs) : Lexed cs (tokensOf (pieces cs)) := by
  induction h with
  | nil =>
    rw [pieces_nil]
    exact lexed_nil
  | @cons p cs lexeme rest h _ ih =>
    rw [pieces_of_first? h]
    cases ht : p.token? lexeme with
    | none =>
      rw [tokensOf_cons_none (p := ⟨p, lexeme⟩) ht]
      exact (lexed_skip_iff h ht).mpr ih
    | some t =>
      intro offset
      rw [tokensOf_cons_some (p := ⟨p, lexeme⟩) ht, scanFrom_token h ht, Scan.tokens, ih]
      rfl

theorem cuttable_of_tokens {offset : Nat} (h : (scanFrom offset cs).tokens = .ok ts) :
    Cuttable cs := by
  fun_induction scanFrom offset cs generalizing ts with
  | case1 => exact .nil
  | case2 => cases h
  | case3 offset c cs p lexeme rest hf ht ih => exact .cons hf (ih h)
  | case4 offset c cs p lexeme rest hf t ht ih =>
    obtain ⟨us, hus, -⟩ := Scan.tokens_token_eq_ok_iff.mp h
    exact .cons hf (ih hus)

theorem lexed_iff_pieces : Lexed cs ts ↔ Cuttable cs ∧ tokensOf (pieces cs) = ts := by
  constructor
  · intro h
    have hc := cuttable_of_tokens (h 0)
    exact ⟨hc, Except.ok.inj ((lexed_pieces hc 0).symm.trans (h 0))⟩
  · rintro ⟨hc, rfl⟩
    exact lexed_pieces hc

/-- An expression is read from the tokens of the pieces of an input. -/
theorem parse_ok_iff_pieces {input : String} {e : Expr} : Expr.parse input = .ok e ↔
    Cuttable input.toList ∧ Spells (tokensOf (pieces input.toList)) e := by
  rw [parse_ok_iff]
  constructor
  · rintro ⟨ts, hts, he⟩
    obtain ⟨hc, rfl⟩ := lexed_iff_pieces.mp ((lexed_iff 0).mpr hts)
    exact ⟨hc, he⟩
  · rintro ⟨hc, he⟩
    exact ⟨_, lexed_pieces hc 0, he⟩

/-! ## Pieces in front of another rest -/

/-- A rest begins like another one, or with a bracket. -/
def BeginsLike (rest rest' : List Char) : Prop :=
  rest'.head? = rest.head? ∨ rest'.head? = some '[' ∨ rest'.head? = some ']'

theorem stops_of_beginsLike {q : Char → Bool} (h : BeginsLike rest rest') (hopen : q '[' = false)
    (hclose : q ']' = false) (hs : Stops q rest) : Stops q rest' := by
  intro c hc
  rcases h with h | h | h
  · exact hs c (h ▸ hc)
  · rw [h] at hc
    cases hc
    exact hopen
  · rw [h] at hc
    cases hc
    exact hclose

namespace Lexeme

theorem stops_of_run {first next : Char → Bool} (h : run first next cs = some (lexeme, rest)) :
    Stops next rest := by
  unfold run at h
  split at h
  · cases h
  · split at h
    · cases h
      exact stops_dropWhile next _
    · cases h

theorem run_of_beginsLike {first next : Char → Bool} (hopen : next '[' = false)
    (hclose : next ']' = false) (h : run first next (lexeme ++ rest) = some (lexeme, rest))
    (hr : BeginsLike rest rest') : run first next (lexeme ++ rest') = some (lexeme, rest') := by
  obtain ⟨c, ds, rfl, hc, hds⟩ := exists_of_run h
  exact run_append hc hds (stops_of_beginsLike hr hopen hclose (stops_of_run h))

/-- What stands between quotes or angle brackets is cut off in front of anything. -/
theorem enclosed_of_append {opening : Char} {inner closing : Char → Bool} {blankAllowed : Bool}
    (hcloses : ∀ d, closing d = true → inner d = false)
    (h : enclosed opening inner closing blankAllowed (lexeme ++ rest) = some (lexeme, rest))
    (rest' : List Char) :
    enclosed opening inner closing blankAllowed (lexeme ++ rest') = some (lexeme, rest') := by
  obtain ⟨ds, d, rfl, hds, hd, hb⟩ := exists_of_enclosed h
  exact enclosed_append hds (hcloses d hd) hd hb

theorem whole?_of_beginsLike (h : Text.whole? (lexeme ++ rest) = some (lexeme, rest))
    (hr : BeginsLike rest rest') : Text.whole? (lexeme ++ rest') = some (lexeme, rest') := by
  have hw := isWhole_of_whole? h
  cases lexeme with
  | nil => exact hw.elim
  | cons c cs =>
    rcases hw with ⟨rfl, rfl⟩ | ⟨hc, hcs⟩
    · rfl
    · rw [List.cons_append, Text.whole?, if_neg hc, if_pos (hcs c List.mem_cons_self)] at h
      have hstops : Stops Char.isDigit rest := by
        rw [← (Prod.mk.inj (Option.some.inj h)).2]
        exact stops_dropWhile _ _
      exact whole?_append (.inr ⟨hc, hcs⟩) (stops_of_beginsLike hr (by decide) (by decide) hstops)

theorem fraction_of_beginsLike (h : Text.fraction (lexeme ++ rest) = (lexeme, rest))
    (hpoint : Stops (· = '.') rest) (hr : BeginsLike rest rest') :
    Text.fraction (lexeme ++ rest') = (lexeme, rest') := by
  have hpoint' := stops_of_beginsLike hr (by decide) (by decide) hpoint
  have hf := isFraction_fraction (lexeme ++ rest)
  rw [h] at hf
  cases lexeme with
  | nil =>
    cases rest' with
    | nil => rfl
    | cons d ds => exact if_neg fun hd => absurd (hpoint' d rfl) (by simp [hd.1])
  | cons c cs =>
    have hstops : Stops Char.isDigit rest := by
      unfold Text.fraction at h
      rw [List.cons_append] at h
      split at h
      · rename_i heq
        split at h
        · rw [← (Prod.mk.inj h).2]
          exact stops_dropWhile _ _
        · cases h
      · cases h
    have hstop := stops_of_beginsLike hr (by decide) (by decide) hstops
    exact fraction_append_of_stops hf hstop hpoint'

/-- A numeral is cut off in front of another rest. -/
theorem number_of_beginsLike (h : number (lexeme ++ rest) = some (lexeme, rest))
    (hpoint : Stops (· = '.') rest) (hr : BeginsLike rest rest') :
    number (lexeme ++ rest') = some (lexeme, rest') := by
  obtain ⟨⟨whole, behind⟩, hw, he⟩ := Option.map_eq_some_iff.mp h
  obtain ⟨tail, htail⟩ : ∃ tail, Text.fraction behind = (tail, rest) :=
    ⟨_, Prod.ext rfl (Prod.mk.inj he).2⟩
  have happ := Text.fraction_append behind
  rw [htail] at he happ
  obtain ⟨rfl, -⟩ := Prod.mk.inj he
  subst happ
  have hbehind : BeginsLike (tail ++ rest) (tail ++ rest') := by
    cases tail with
    | nil => exact hr
    | cons c cs => exact .inl rfl
  rw [List.append_assoc] at hw
  rw [number, List.append_assoc, whole?_of_beginsLike hw hbehind, Option.map_some,
    fraction_of_beginsLike htail hpoint hr]

end Lexeme

namespace Pattern

/-- A lexeme other than a comment is cut off in front of another rest. -/
theorem split?_of_beginsLike (h : p.split? (lexeme ++ rest) = some (lexeme, rest))
    (hp : p ≠ .comment) (hpoint : Stops (· = '.') rest) (hr : BeginsLike rest rest') :
    p.split? (lexeme ++ rest') = some (lexeme, rest') := by
  cases p with
  | comment => exact absurd rfl hp
  | blanks => exact Lexeme.run_of_beginsLike (by decide) (by decide) h hr
  | identifier => exact Lexeme.run_of_beginsLike (by decide) (by decide) h hr
  | typeRef => exact Lexeme.enclosed_of_append (by simp [isNameStart]) h rest'
  | doubleQuoted | singleQuoted => exact Lexeme.enclosed_of_append (by simp) h rest'
  | curlyQuoted => exact Lexeme.enclosed_of_append (by simp) h rest'
  | number => exact Lexeme.number_of_beginsLike h hpoint hr
  | _ =>
    obtain rfl := (Lexeme.fixed_eq h).2
    exact Lexeme.fixed_append _ _

/-- No pattern begins with a point. -/
theorem not_opens_point : ∀ p ∈ all, ∀ h ∈ p.heads, '.'.toNat < h.1 ∨ h.2 < '.'.toNat := by
  decide

theorem stops_point_of_first? (h : first? cs = some (p, lexeme, rest)) : Stops (· = '.') cs := by
  obtain ⟨c, ds, rfl, hc⟩ := opens_of_split? (split?_of_first? h)
  rw [← append_of_first? h]
  rintro d ⟨⟩
  refine decide_eq_false fun hd => ?_
  obtain ⟨k, hk, hl, hu⟩ := hc
  have := not_opens_point p (mem_all p) k hk
  rw [hd] at hl hu
  omega

/-- **A piece other than a comment is cut off in front of another rest** that begins like the rest,
or with a bracket. -/
theorem first?_of_beginsLike (h : first? cs = some (p, lexeme, rest)) (hp : p ≠ .comment)
    (hpoint : Stops (· = '.') rest) (hr : BeginsLike rest rest') :
    first? (lexeme ++ rest') = some (p, lexeme, rest') := by
  have hcs := append_of_first? h
  subst hcs
  have hsplit := split?_of_first? h
  refine first?_of_split? (split?_of_beginsLike hsplit hp hpoint hr) fun hbar => ?_
  subst hbar
  obtain rfl := (Lexeme.fixed_eq hsplit).2
  -- a second bar behind the first one would have been found before
  have hstops : Stops (· = '|') rest := by
    intro d hd
    refine decide_eq_false fun hd' => ?_
    subst hd'
    obtain ⟨ds, rfl⟩ : ∃ ds, rest = '|' :: ds := List.head?_eq_some_iff.mp hd
    cases h
  have hstops' := stops_of_beginsLike hr (by decide) (by decide) hstops
  cases rest' with
  | nil => rfl
  | cons d ds =>
    have hd : d ≠ '|' := of_decide_eq_false (hstops' d rfl)
    exact if_neg (by simp [List.isPrefixOf, Ne.symm hd])

end Pattern

theorem stops_point_of_cuttable (h : Cuttable cs) : Stops (· = '.') cs := by
  cases h with
  | nil => rintro c ⟨⟩
  | cons h _ => exact Pattern.stops_point_of_first? h

/-- **A text without comments is cut into its own pieces** in front of a bracket, or at the end. -/
theorem Cuttable.append (h : Cuttable cs) (hc : ∀ p ∈ pieces cs, p.pattern ≠ .comment)
    (hrest : Cuttable rest) (hr : BeginsLike [] rest) :
    Cuttable (cs ++ rest) ∧ pieces (cs ++ rest) = pieces cs ++ pieces rest := by
  induction h with
  | nil => exact ⟨hrest, by rw [pieces_nil]; rfl⟩
  | @cons p cs lexeme behind h hbehind ih =>
    rw [pieces_of_first? h] at hc ⊢
    obtain ⟨hp, hc⟩ := List.forall_mem_cons.mp hc
    obtain ⟨ihc, ihp⟩ := ih hc
    have hlike : BeginsLike behind (behind ++ rest) := by
      cases behind with
      | nil => exact hr
      | cons c ds => exact .inl rfl
    have hf := Pattern.first?_of_beginsLike h hp (stops_point_of_cuttable hbehind) hlike
    rw [← append_of_first? h, List.append_assoc]
    exact ⟨.cons hf ihc, by rw [pieces_of_first? hf, ihp]; rfl⟩

end ValueGrammar
