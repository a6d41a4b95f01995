import ValueGrammar.Proofs.Lexeme
import ValueGrammar.Token.Lexer

/-!
# The tokens of a scan

Which tokens a text is cut into does not depend on the offset at which it begins, only the places
of its faults do. `Lexed cs ts` says that a text is cut into given tokens, wherever it begins.

Asked again and again, a lexer gives the answers of its scan: the tokens, and then the end of the
input or the fault for ever.

Headlines:
* **`Lexer.answers_eq`**: the answers of a lexer are those of its scan.
* **`scanFrom_all`**: what holds of the token of every lexeme holds of every token of a scan.
* **`lexed_of_split?`**: the pattern that matches in front of a text gives its first token.
* **`lexed_blank_iff`**: a blank in front of a text leaves its tokens as they are.
-/

namespace ValueGrammar

/-! ## The answers of a lexer -/

namespace Lexer

variable {l : Lexer} {t : Token} {offset : Nat}

theorem next_of_token {rest : Scan} (h : l.upcoming = .token t offset rest) :
    l.next = (.ok t, ⟨l.input, offset, rest⟩) := by
  rw [next, h]

theorem next_of_finished {length : Nat} (h : l.upcoming = .finished length) :
    l.next = (.ok .endOfInput, ⟨l.input, length, .finished length⟩) := by
  rw [next, h]

theorem next_of_fault {e : LexError} (h : l.upcoming = .fault e) :
    l.next = (.error e, ⟨l.input, e.offset, .fault e⟩) := by
  rw [next, h]

/-- An answer of a lexer, and the offset that it reports with it. -/
abbrev Answer := Except LexError Token × Nat

/-- The answers of a lexer when it is asked a number of times. -/
def answers (l : Lexer) : Nat → List Answer
  | 0 => []
  | n + 1 => (l.next.1, l.next.2.offset) :: l.next.2.answers n

end Lexer

/-- The answers of a scan. -/
def Scan.answers : Scan → Nat → List Lexer.Answer
  | .token t offset rest, n + 1 => (.ok t, offset) :: rest.answers n
  | .finished length, n => List.replicate n (.ok .endOfInput, length)
  | .fault e, n => List.replicate n (.error e, e.offset)
  | .token .., 0 => []

/-- The answers of a lexer are those of its scan. -/
theorem Lexer.answers_eq (l : Lexer) (n : Nat) : l.answers n = l.upcoming.answers n := by
  induction n generalizing l with
  | zero => cases hu : l.upcoming <;> rfl
  | succ n ih =>
    rw [answers, ih]
    cases hu : l.upcoming with
    | token t offset rest => rw [next_of_token hu, Scan.answers]
    | finished length => rw [next_of_finished hu]; rfl
    | fault e => rw [next_of_fault hu]; rfl

/-! ## Properties of all tokens -/

/-- A scan that begins with a token has tokens up to its end if what comes behind it has. -/
theorem Scan.tokens_token_eq_ok_iff {t : Token} {offset : Nat} {rest : Scan} {ts : List Token} :
    (Scan.token t offset rest).tokens = .ok ts ↔ ∃ us, rest.tokens = .ok us ∧ ts = t :: us := by
  rw [tokens]
  cases rest.tokens with
  | error e => exact ⟨by rintro ⟨⟩, by rintro ⟨_, ⟨⟩, -⟩⟩
  | ok us =>
    constructor
    · rintro ⟨⟩
      exact ⟨us, rfl, rfl⟩
    · rintro ⟨_, ⟨⟩, rfl⟩
      rfl

/-- Whether every token of a scan has a property. -/
def Scan.All (P : Token → Prop) : Scan → Prop
  | .token t _ rest => P t ∧ rest.All P
  | .finished _ | .fault _ => True

/-- What holds of the token of every lexeme holds of every token of a scan. -/
theorem scanFrom_all {P : Token → Prop}
    (h : ∀ {p : Pattern} {cs lexeme rest : List Char} {t : Token},
      p.split? cs = some (lexeme, rest) → p.token? lexeme = some t → P t)
    (offset : Nat) (cs : List Char) : (scanFrom offset cs).All P := by
  fun_induction scanFrom offset cs with
  | case1 => trivial
  | case2 => trivial
  | case3 _ _ _ _ _ _ _ _ ih => exact ih
  | case4 offset c cs p lexeme rest hf t ht ih => exact ⟨h (Pattern.split?_of_first? hf) ht, ih⟩

/-- Every token of a scan is among the tokens that have been collected. -/
theorem tokens_all {P : Token → Prop} {s : Scan} (h : s.All P) {ts : List Token}
    (hts : s.tokens = .ok ts) : ∀ t ∈ ts, P t := by
  induction s generalizing ts with
  | token t offset rest ih =>
    obtain ⟨us, hus, rfl⟩ := Scan.tokens_token_eq_ok_iff.mp hts
    exact List.forall_mem_cons.mpr ⟨h.1, ih h.2 hus⟩
  | finished length =>
    cases hts
    exact List.forall_mem_nil _
  | fault e => cases hts

theorem token?_ne_endOfInput {p : Pattern} {lexeme : List Char} {t : Token}
    (h : p.token? lexeme = some t) : t ≠ .endOfInput := by
  rintro rfl
  cases p <;> simp [Pattern.token?] at h

/-- The end of the input is no token of a scan. -/
theorem scan_ne_endOfInput (input : String) : (scan input).All (· ≠ .endOfInput) :=
  scanFrom_all (fun _ ht => token?_ne_endOfInput ht) 0 input.toList

/-! ## Texts and their tokens -/

variable {p : Pattern} {cs lexeme rest : List Char} {t : Token} {ts : List Token}

/-- Where a text begins has no influence on its tokens. -/
theorem tokens_scanFrom_of_offset {offset : Nat} (offset' : Nat)
    (h : (scanFrom offset cs).tokens = .ok ts) : (scanFrom offset' cs).tokens = .ok ts := by
  fun_induction scanFrom offset cs generalizing offset' ts with
  | case1 =>
    rw [scanFrom_nil]
    exact h
  | case2 => cases h
  | case3 offset c cs p lexeme rest hf ht ih =>
    rw [scanFrom_skip hf ht]
    exact ih _ h
  | case4 offset c cs p lexeme rest hf t ht ih =>
    obtain ⟨us, hus, rfl⟩ := Scan.tokens_token_eq_ok_iff.mp h
    rw [scanFrom_token hf ht]
    exact Scan.tokens_token_eq_ok_iff.mpr ⟨us, ih _ hus, rfl⟩

/-- A text is cut into given tokens, wherever it begins. -/
def Lexed (cs : List Char) (ts : List Token) : Prop :=
  ∀ offset, (scanFrom offset cs).tokens = .ok ts

theorem lexed_iff (offset : Nat) : Lexed cs ts ↔ (scanFrom offset cs).tokens = .ok ts :=
  ⟨fun h => h offset, fun h offset' => tokens_scanFrom_of_offset offset' h⟩

theorem lexed_nil : Lexed [] [] := by
  intro offset
  rw [scanFrom_nil]
  rfl

theorem lexed_skip_iff (h : Pattern.first? cs = some (p, lexeme, rest))
    (ht : p.token? lexeme = none) : Lexed cs ts ↔ Lexed rest ts := by
  rw [lexed_iff 0, scanFrom_skip h ht, ← lexed_iff]

/-- The pattern that matches in front of a text gives its first token. -/
theorem lexed_of_split? (h : p.split? cs = some (lexeme, rest))
    (hbar : p = .bar → Pattern.doubleBar.split? cs = none) (ht : p.token? lexeme = some t)
    (hr : Lexed rest ts) : Lexed cs (t :: ts) := by
  intro offset
  rw [scanFrom_token (Pattern.first?_of_split? h hbar) ht, Scan.tokens, hr]
  rfl

theorem first?_blanks {c : Char} (hc : Text.isBlank c = true) (cs : List Char) :
    Pattern.first? (c :: cs) =
      some (.blanks, c :: cs.takeWhile Text.isBlank, cs.dropWhile Text.isBlank) :=
  Pattern.first?_of_split? (p := .blanks) (if_pos hc) (by simp)

/-- A blank in front of a text only moves its offset. -/
theorem scanFrom_blank {c : Char} (hc : Text.isBlank c = true) (offset : Nat) (cs : List Char) :
    scanFrom offset (c :: cs) = scanFrom (offset + c.utf8Size) cs := by
  rw [scanFrom_skip (first?_blanks hc cs) rfl, byteLength, ← Nat.add_assoc]
  -- blanks that follow belong to the same run
  cases cs with
  | nil => rfl
  | cons d cs =>
    by_cases hd : Text.isBlank d = true
    · rw [scanFrom_skip (first?_blanks hd cs) rfl, List.takeWhile_cons_of_pos hd,
        List.dropWhile_cons_of_pos hd]
    · rw [List.takeWhile_cons_of_neg hd, List.dropWhile_cons_of_neg hd]
      rfl

theorem lexed_blank_iff {c : Char} (hc : Text.isBlank c = true) :
    Lexed (c :: cs) ts ↔ Lexed cs ts := by
  rw [lexed_iff 0, scanFrom_blank hc, ← lexed_iff]

/-- A space in front of a text leaves its tokens as they are. -/
theorem lexed_space (h : Lexed cs ts) : Lexed (' ' :: cs) ts :=
  (lexed_blank_iff (by decide)).mpr h

end ValueGrammar
