import ValueGrammar.Proofs.Offsets
import ValueGrammar.Proofs.Pieces

/-!
# The front of a text

`CutsOff behind front ts` says that the front of a text is cut into given tokens while the rest of
the text stands behind it. Without the rest, or with a line break in its place, the front is cut
into the same tokens: no lexeme goes on behind a line break but a run of blanks, which has no token,
and a comment ends there.

So a text up to one of its lexemes has the tokens that come before, and what is written on the next
line adds its own.

Headlines:
* **`scanFrom_blanks`**: blanks in front of a text only move its offset.
* **`first?_of_endsLine`**: a lexeme is cut off in front of a line break.
* **`CutsOff.scanFrom_append`**: the scan of a front goes on with the scan of the next line.
* **`CutsOff.lexed_append_iff`**: the tokens of a front and of the next line.
* **`exists_of_next`**: the next token of a lexer is that of a lexeme behind blanks and comments.
-/

namespace ValueGrammar

variable {p : Pattern} {cs front front' behind lexeme rest : List Char} {t : Token}
  {ts us ws : List Token}

/-! ## Blanks -/

/-- Blanks in front of a text only move its offset. -/
theorem scanFrom_blanks {bs : List Char} (h : ∀ c ∈ bs, Text.isBlank c = true) (offset : Nat)
    (cs : List Char) : scanFrom offset (bs ++ cs) = scanFrom (offset + byteLength bs) cs := by
  induction bs generalizing offset with
  | nil => rfl
  | cons b bs ih =>
    obtain ⟨hb, hbs⟩ := List.forall_mem_cons.mp h
    rw [List.cons_append, scanFrom_blank hb, ih hbs, byteLength, Nat.add_assoc]

/-! ## Lexemes in front of a line break -/

/-- A line ends in front of a text: it is empty or begins with a line break. -/
def EndsLine (rest : List Char) : Prop := Stops (· ≠ '\n') rest

theorem endsLine_nil : EndsLine [] := by
  rintro c ⟨⟩

theorem endsLine_cons (rest : List Char) : EndsLine ('\n' :: rest) := by
  rintro c ⟨⟩
  rfl

theorem stops_of_endsLine {q : Char → Bool} (h : EndsLine rest) (hq : q '\n' = false) :
    Stops q rest := by
  intro c hc
  obtain rfl : c = '\n' := by simpa using h c hc
  exact hq

namespace Lexeme

theorem endsLine_of_comment (h : comment cs = some (lexeme, rest)) : EndsLine rest := by
  obtain ⟨ds, -, -, hends⟩ := exists_of_comment h
  exact hends

theorem comment_of_endsLine (h : comment (lexeme ++ behind) = some (lexeme, behind))
    (hr : EndsLine rest) : comment (lexeme ++ rest) = some (lexeme, rest) := by
  obtain ⟨ds, rfl, hds, -⟩ := exists_of_comment h
  exact comment_append hds hr

end Lexeme

namespace Pattern

theorem split?_of_endsLine (h : p.split? (lexeme ++ behind) = some (lexeme, behind))
    (hp : p ≠ .blanks) (hr : EndsLine rest) : p.split? (lexeme ++ rest) = some (lexeme, rest) := by
  cases p with
  | blanks => exact absurd rfl hp
  | comment => exact Lexeme.comment_of_endsLine h hr
  | identifier =>
    obtain ⟨c, ds, rfl, hc, hds⟩ := Lexeme.exists_of_run h
    exact Lexeme.run_append hc hds (stops_of_endsLine hr (by decide))
  | typeRef => exact Lexeme.enclosed_of_append (by simp [isNameStart]) h rest
  | doubleQuoted | singleQuoted => exact Lexeme.enclosed_of_append (by simp) h rest
  | curlyQuoted => exact Lexeme.enclosed_of_append (by simp) h rest
  | number =>
    exact Lexeme.number_append (Lexeme.isNumeral_of_number h) (stops_of_endsLine hr (by decide))
      (stops_of_endsLine hr (by decide))
  | _ =>
    obtain rfl := (Lexeme.fixed_eq h).2
    exact Lexeme.fixed_append _ _

/-- **A lexeme other than blanks is cut off in front of a line break**, at once or behind what
stands between. -/
theorem first?_of_endsLine
    (h : first? (lexeme ++ (front ++ behind)) = some (p, lexeme, front ++ behind))
    (hp : p ≠ .blanks) (hpoint : front ≠ [] → Stops (· = '.') (front ++ behind))
    (hr : EndsLine rest) :
    first? (lexeme ++ (front ++ rest)) = some (p, lexeme, front ++ rest) := by
  have hsplit := split?_of_first? h
  cases front with
  | nil =>
    refine first?_of_split? (split?_of_endsLine hsplit hp hr) fun hbar => ?_
    subst hbar
    obtain rfl := (Lexeme.fixed_eq hsplit).2
    have hstops : Stops (· = '|') rest := stops_of_endsLine hr (by decide)
    cases rest with
    | nil => rfl
    | cons d ds =>
      have hd : d ≠ '|' := of_decide_eq_false (hstops d rfl)
      exact if_neg (by simp [List.isPrefixOf, Ne.symm hd])
  | cons c front =>
    by_cases hcomment : p = .comment
    · subst hcomment
      have hends : EndsLine (c :: front ++ behind) := Lexeme.endsLine_of_comment hsplit
      have hends : EndsLine (c :: front ++ rest) := fun d hd => hends d hd
      exact first?_of_split? (Lexeme.comment_of_endsLine hsplit hends) (by simp)
    · exact first?_of_beginsLike h hcomment (hpoint (by simp)) (.inl rfl)

/-- A lexeme other than blanks is cut off although nothing stands behind. -/
theorem first?_alone
    (h : first? (lexeme ++ (front ++ behind)) = some (p, lexeme, front ++ behind))
    (hp : p ≠ .blanks) (hpoint : front ≠ [] → Stops (· = '.') (front ++ behind)) :
    first? (lexeme ++ front) = some (p, lexeme, front) := by
  have hcut := first?_of_endsLine h hp hpoint endsLine_nil
  rwa [List.append_nil] at hcut

theorem all_isBlank (h : first? cs = some (.blanks, lexeme, rest)) :
    ∀ c ∈ lexeme, Text.isBlank c = true := by
  obtain ⟨c, ds, rfl, hc, hds⟩ := Lexeme.exists_of_run (split?_of_first? h)
  exact List.forall_mem_cons.mpr ⟨hc, hds⟩

theorem ne_blanks_of_token? (h : p.token? lexeme = some t) : p ≠ .blanks := by
  rintro rfl
  cases h

end Pattern

/-! ## The front of a text -/

/-- **In front of the rest of a text**, its front is cut into given tokens. -/
inductive CutsOff (behind : List Char) : List Char → List Token → Prop
  | nil : CutsOff behind [] []
  | skip {p : Pattern} {lexeme front : List Char} {ts : List Token}
      (h : Pattern.first? (lexeme ++ (front ++ behind)) = some (p, lexeme, front ++ behind))
      (ht : p.token? lexeme = none) (hr : CutsOff behind front ts) :
      CutsOff behind (lexeme ++ front) ts
  | token {p : Pattern} {lexeme front : List Char} {t : Token} {ts : List Token}
      (h : Pattern.first? (lexeme ++ (front ++ behind)) = some (p, lexeme, front ++ behind))
      (ht : p.token? lexeme = some t) (hr : CutsOff behind front ts) :
      CutsOff behind (lexeme ++ front) (t :: ts)

/-- A scan that goes on with another one where it finishes. -/
def Scan.andThen : Scan → Scan → Scan
  | .token t offset rest, next => .token t offset (rest.andThen next)
  | .finished _, next => next
  | .fault e, _ => .fault e

theorem Scan.tokens_andThen {s : Scan} (h : s.tokens = .ok ts) (next : Scan) :
    (s.andThen next).tokens = next.tokens.map (ts ++ ·) := by
  induction s generalizing ts with
  | token t offset rest ih =>
    obtain ⟨us, hus, rfl⟩ := tokens_token_eq_ok_iff.mp h
    rw [andThen, tokens, ih hus]
    cases next.tokens <;> rfl
  | finished length =>
    cases h
    rw [andThen]
    cases next.tokens <;> rfl
  | fault e => cases h

namespace CutsOff

/-- A front is cut off in front of another one, which is cut off itself. -/
theorem append (h : CutsOff (front' ++ behind) front ts) (h' : CutsOff behind front' us) :
    CutsOff behind (front ++ front') (ts ++ us) := by
  induction h with
  | nil => exact h'
  | skip h ht _ ih =>
    rw [List.append_assoc]
    exact .skip (by rwa [List.append_assoc]) ht ih
  | token h ht _ ih =>
    rw [List.append_assoc]
    exact .token (by rwa [List.append_assoc]) ht ih

/-- The first lexeme of what is behind can be taken to the front. -/
theorem append_lexeme (h : CutsOff (lexeme ++ rest) front ts)
    (hf : Pattern.first? (lexeme ++ rest) = some (p, lexeme, rest))
    (ht : p.token? lexeme = some t) : CutsOff rest (front ++ lexeme) (ts ++ [t]) := by
  have hlexeme : CutsOff rest (lexeme ++ []) [t] := .token hf ht .nil
  rw [List.append_nil] at hlexeme
  exact h.append hlexeme

theorem stops_point (h : CutsOff behind front ts) (hne : front ≠ []) :
    Stops (· = '.') (front ++ behind) := by
  cases h with
  | nil => exact absurd rfl hne
  | skip h | token h =>
    rw [List.append_assoc]
    exact Pattern.stops_point_of_first? h

/-- **The scan of a front** goes on with the scan of what stands on the next line. -/
theorem scanFrom_append (h : CutsOff behind front ts) (hr : EndsLine rest) (offset : Nat) :
    scanFrom offset (front ++ rest) =
      (scanFrom offset front).andThen (scanFrom (offset + byteLength front) rest) := by
  induction h generalizing offset with
  | nil =>
    rw [scanFrom_nil]
    rfl
  | @skip p lexeme front ts h ht hfront ih =>
    rw [List.append_assoc, byteLength_append, ← Nat.add_assoc]
    by_cases hp : p = .blanks
    · subst hp
      rw [scanFrom_blanks (Pattern.all_isBlank h), scanFrom_blanks (Pattern.all_isBlank h), ih]
    · rw [scanFrom_skip (Pattern.first?_of_endsLine h hp hfront.stops_point hr) ht,
        scanFrom_skip (Pattern.first?_alone h hp hfront.stops_point) ht, ih]
  | @token p lexeme front t ts h ht hfront ih =>
    have hp := Pattern.ne_blanks_of_token? ht
    rw [List.append_assoc, byteLength_append, ← Nat.add_assoc,
      scanFrom_token (Pattern.first?_of_endsLine h hp hfront.stops_point hr) ht,
      scanFrom_token (Pattern.first?_alone h hp hfront.stops_point) ht, ih, Scan.andThen]

/-- A front alone has the tokens that it has in its text. -/
theorem lexed (h : CutsOff behind front ts) : Lexed front ts := by
  induction h with
  | nil => exact lexed_nil
  | @skip p lexeme front ts h ht hfront ih =>
    by_cases hp : p = .blanks
    · subst hp
      intro offset
      rw [scanFrom_blanks (Pattern.all_isBlank h), ih]
    · have halone := Pattern.first?_alone h hp hfront.stops_point
      exact (lexed_skip_iff halone ht).mpr ih
  | @token p lexeme front t ts h ht hfront ih =>
    have hp := Pattern.ne_blanks_of_token? ht
    have halone := Pattern.first?_alone h hp hfront.stops_point
    intro offset
    rw [scanFrom_token halone ht, Scan.tokens, ih]
    rfl

/-- **The tokens of a front and of the next line** stand one after the other. -/
theorem lexed_append_iff (h : CutsOff behind front ts) (hr : EndsLine rest) :
    Lexed (front ++ rest) ws ↔ ∃ us, Lexed rest us ∧ ws = ts ++ us := by
  have htokens := Scan.tokens_andThen (h.lexed 0) (scanFrom (0 + byteLength front) rest)
  rw [lexed_iff 0, h.scanFrom_append hr, htokens]
  constructor
  · intro hws
    cases hus : (scanFrom (0 + byteLength front) rest).tokens with
    | error e =>
      rw [hus] at hws
      cases hws
    | ok us =>
      rw [hus] at hws
      exact ⟨us, (lexed_iff _).mpr hus, (Except.ok.inj hws).symm⟩
  · rintro ⟨us, hus, rfl⟩
    rw [hus]
    rfl

end CutsOff

/-! ## The next token -/

/-- **A token comes first** in a text, whose scan goes on behind it: it is the token of the first
lexeme, or the end of the input in front of nothing. -/
inductive ComesFirst (offset : Nat) : Token → List Char → Scan → Prop
  | lexeme {p : Pattern} {lexeme rest : List Char} {t : Token}
      (h : Pattern.first? (lexeme ++ rest) = some (p, lexeme, rest))
      (ht : p.token? lexeme = some t) :
      ComesFirst offset t (lexeme ++ rest) (scanFrom (offset + byteLength lexeme) rest)
  | endOfInput : ComesFirst offset .endOfInput [] (.finished offset)

namespace ComesFirst

variable {offset : Nat} {upcoming : Scan}

theorem exists_lexeme (h : ComesFirst offset t behind upcoming) (ht : t ≠ .endOfInput) :
    ∃ p lexeme rest, behind = lexeme ++ rest ∧
      Pattern.first? (lexeme ++ rest) = some (p, lexeme, rest) ∧ p.token? lexeme = some t ∧
        upcoming = scanFrom (offset + byteLength lexeme) rest := by
  cases h with
  | lexeme h ht' => exact ⟨_, _, _, rfl, h, ht', rfl⟩
  | endOfInput => exact absurd rfl ht

/-- The end of the input comes first in front of nothing only. -/
theorem endOfInput_iff (h : ComesFirst offset t behind upcoming) :
    t = .endOfInput ↔ behind = [] := by
  cases h with
  | lexeme h ht =>
    have hne := Pattern.ne_nil_of_split? (Pattern.split?_of_first? h)
    exact iff_of_false (token?_ne_endOfInput ht) (List.append_ne_nil_of_left_ne_nil hne _)
  | endOfInput => exact iff_of_true rfl rfl

end ComesFirst

/-- **The next token of a lexer** comes first behind blanks and comments. -/
theorem exists_of_next {l l' : Lexer} {offset : Nat} (hl : l.upcoming = scanFrom offset cs)
    (h : l.next = (.ok t, l')) : ∃ skipped behind, cs = skipped ++ behind ∧
      CutsOff behind skipped [] ∧ l'.input = l.input ∧ l'.offset = offset + byteLength skipped ∧
        ComesFirst l'.offset t behind l'.upcoming := by
  fun_induction scanFrom offset cs with
  | case1 offset =>
    rw [Lexer.next_of_finished hl] at h
    cases h
    exact ⟨[], [], rfl, .nil, rfl, rfl, .endOfInput⟩
  | case2 offset c cs hf =>
    rw [Lexer.next_of_fault hl] at h
    cases h
  | case3 offset c cs p lexeme rest hf ht ih =>
    obtain ⟨skipped, behind, rfl, hcut, hinput, hoffset, hfirst⟩ := ih hl
    have happ := append_of_first? hf
    rw [← happ] at hf ⊢
    refine ⟨lexeme ++ skipped, behind, (List.append_assoc _ _ _).symm, .skip hf ht hcut, hinput, ?_,
      hfirst⟩
    rw [hoffset, byteLength_append, Nat.add_assoc]
  | case4 offset c cs p lexeme rest hf t' ht ih =>
    rw [Lexer.next_of_token hl] at h
    cases h
    have happ := append_of_first? hf
    rw [← happ] at hf ⊢
    exact ⟨[], _, rfl, .nil, rfl, rfl, .lexeme hf ht⟩

end ValueGrammar
