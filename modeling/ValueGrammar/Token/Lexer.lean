import ValueGrammar.Token.Pattern

/-!
# The tokens of an input

Model of `Lexer` (`new`, `input`, `offset`, `next_token`, `tokenize`) and `LexError`.

`scan` cuts an input into tokens up to its end or up to the first character at which no pattern
matches. A `Lexer` hands the tokens out one by one; at the end, and at a fault, it stays.

Offsets count the bytes of the input in UTF-8.

Out of scope: compiled patterns that are kept between calls.

Headlines:
* **`scanFrom_nil`**, **`scanFrom_fault`**, **`scanFrom_skip`**, **`scanFrom_token`**: one
  equation for each thing that can stand in front.
-/

namespace ValueGrammar

/-- A character at which no pattern matches, and its offset. -/
structure LexError where
  offset : Nat
  found : Char
  deriving DecidableEq

/-- The message of a lexical error. -/
def LexError.message (e : LexError) : String :=
  "unexpected character '" ++ e.found.toString ++ "' at offset " ++ toString e.offset

/-- The number of bytes of a text in UTF-8. -/
def byteLength : List Char → Nat
  | [] => 0
  | c :: cs => c.utf8Size + byteLength cs

/-! ## Scanning -/

/-- Tokens with their offsets, up to the end of the input or the first fault. -/
inductive Scan
  | token (value : Token) (offset : Nat) (rest : Scan)
  | finished (length : Nat)
  | fault (error : LexError)

/-- The scan of a text that begins at an offset. -/
def scanFrom (offset : Nat) (cs : List Char) : Scan :=
  match cs with
  | [] => .finished offset
  | c :: rest =>
    match _h : Pattern.first? (c :: rest) with
    | none => .fault ⟨offset, c⟩
    | some (p, lexeme, rest) =>
      match p.token? lexeme with
      | none => scanFrom (offset + byteLength lexeme) rest
      | some t => .token t offset (scanFrom (offset + byteLength lexeme) rest)
termination_by cs.length
decreasing_by all_goals exact Pattern.length_lt_of_first? _h

/-- The scan of an input. -/
def scan (input : String) : Scan := scanFrom 0 input.toList

@[simp] theorem scanFrom_nil (offset : Nat) : scanFrom offset [] = .finished offset := by
  rw [scanFrom]

theorem scanFrom_fault {offset : Nat} {c : Char} {rest : List Char}
    (h : Pattern.first? (c :: rest) = none) : scanFrom offset (c :: rest) = .fault ⟨offset, c⟩ := by
  rw [scanFrom]
  split <;> simp_all

theorem scanFrom_skip {offset : Nat} {cs lexeme rest : List Char} {p : Pattern}
    (h : Pattern.first? cs = some (p, lexeme, rest)) (ht : p.token? lexeme = none) :
    scanFrom offset cs = scanFrom (offset + byteLength lexeme) rest := by
  cases cs with
  | nil => exact absurd (Pattern.length_lt_of_first? h) (by simp)
  | cons c cs =>
    conv => lhs; rw [scanFrom]
    split
    · simp_all
    · next h' =>
      rw [h] at h'
      cases h'
      simp [ht]

theorem scanFrom_token {offset : Nat} {cs lexeme rest : List Char} {p : Pattern} {t : Token}
    (h : Pattern.first? cs = some (p, lexeme, rest)) (ht : p.token? lexeme = some t) :
    scanFrom offset cs = .token t offset (scanFrom (offset + byteLength lexeme) rest) := by
  cases cs with
  | nil => exact absurd (Pattern.length_lt_of_first? h) (by simp)
  | cons c cs =>
    conv => lhs; rw [scanFrom]
    split
    · simp_all
    · next h' =>
      rw [h] at h'
      cases h'
      simp [ht]

namespace Scan

/-- The number of tokens. -/
def length : Scan → Nat
  | .token _ _ rest => rest.length + 1
  | .finished _ | .fault _ => 0

/-- The tokens, if the scan reaches the end of the input. -/
def tokens : Scan → Except LexError (List Token)
  | .token t _ rest => rest.tokens.map (t :: ·)
  | .finished _ => .ok []
  | .fault e => .error e

/-- The tokens with their offsets, as far as they begin at or before a given offset. -/
def upTo (last : Nat) : Scan → List (Token × Nat)
  | .token t offset rest => if offset ≤ last then (t, offset) :: rest.upTo last else []
  | .finished _ | .fault _ => []

end Scan

/-! ## Lexers -/

/-- A place in the scan of an input: the offset last reached, and what comes next. -/
structure Lexer where
  input : String
  offset : Nat
  upcoming : Scan

namespace Lexer

/-- A lexer at the beginning of an input. -/
def ofInput (input : String) : Lexer := ⟨input, 0, scan input⟩

/-- The next token, or the fault that is next; after the last token, the end of the input. -/
def next (l : Lexer) : Except LexError Token × Lexer :=
  match l.upcoming with
  | .token t offset rest => (.ok t, { l with offset, upcoming := rest })
  | .finished offset => (.ok .endOfInput, { l with offset })
  | .fault e => (.error e, { l with offset := e.offset })

/-- All the tokens that are left. -/
def tokens (l : Lexer) : Except LexError (List Token) := l.upcoming.tokens

end Lexer

/-- All the tokens of an input. -/
def tokenize (input : String) : Except LexError (List Token) := (scan input).tokens

end ValueGrammar
