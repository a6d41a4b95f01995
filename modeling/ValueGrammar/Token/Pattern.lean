import ValueGrammar.Text.Blank
import ValueGrammar.Text.Numeral
import ValueGrammar.Token.Basic

/-!
# Lexical patterns

Model of the lexer's `RULES`, `make_token` and `strip_delimiters`.

There are twenty patterns. Each cuts the longest lexeme that it matches off the front of a text.
They are tried in the order of `Pattern.all` and the first that matches decides; the order matters
only for `||` before `|`.

Names are ASCII. Quoted texts may hold newlines. A comment runs from `//` to the end of its line.

Headlines:
* **`append_of_split?`**: cutting a lexeme loses no character.
* **`ne_nil_of_split?`**: a lexeme is never empty.
-/

namespace ValueGrammar

/-! ## Characters of names -/

/-- Whether a character can begin an identifier, or stand in the name of a type. -/
def isNameStart (c : Char) : Bool := c = '-' || c = '_' || c.isAlpha

/-- Whether a character can follow in an identifier. -/
def isNamePart (c : Char) : Bool := isNameStart c || c.isDigit

/-! ## Cutting lexemes -/

namespace Lexeme

/-- A lexeme and what follows it. -/
abbrev Cut := Option (List Char × List Char)

/-- One character of a class and the run of another class after it. -/
def run (first next : Char → Bool) : List Char → Cut
  | [] => none
  | c :: cs => if first c then some (c :: cs.takeWhile next, cs.dropWhile next) else none

/-- A fixed text. -/
def fixed (text cs : List Char) : Cut :=
  if text.isPrefixOf cs then some (text, cs.drop text.length) else none

/-- An opening character, a run of inner ones, and one closing character. -/
def enclosed (opening : Char) (inner closing : Char → Bool) (blankAllowed : Bool) :
    List Char → Cut
  | [] => none
  | c :: cs =>
    if c = opening ∧ (blankAllowed = true ∨ cs.takeWhile inner ≠ []) then
      match cs.dropWhile inner with
      | [] => none
      | d :: rest => if closing d then some (c :: (cs.takeWhile inner ++ [d]), rest) else none
    else none

/-- Two slashes and the rest of the line. -/
def comment (cs : List Char) : Cut :=
  (fixed ['/', '/'] cs).map fun r => (r.1 ++ r.2.takeWhile (· ≠ '\n'), r.2.dropWhile (· ≠ '\n'))

/-- A whole numeral, with a fraction if there is one. -/
def number (cs : List Char) : Cut :=
  (Text.whole? cs).map fun r => (r.1 ++ (Text.fraction r.2).1, (Text.fraction r.2).2)

theorem run_eq {first next : Char → Bool} {cs lexeme rest : List Char}
    (h : run first next cs = some (lexeme, rest)) : lexeme ++ rest = cs ∧ lexeme ≠ [] := by
  unfold run at h
  split at h
  · cases h
  · split at h
    · cases h; simp [List.takeWhile_append_dropWhile]
    · cases h

theorem fixed_eq {text cs lexeme rest : List Char} (h : fixed text cs = some (lexeme, rest)) :
    lexeme ++ rest = cs ∧ lexeme = text := by
  unfold fixed at h
  split at h
  · next hp =>
    obtain ⟨t, rfl⟩ := List.isPrefixOf_iff_prefix.1 hp
    cases h
    simp
  · cases h

theorem enclosed_eq {opening : Char} {inner closing : Char → Bool} {blankAllowed : Bool}
    {cs lexeme rest : List Char}
    (h : enclosed opening inner closing blankAllowed cs = some (lexeme, rest)) :
    lexeme ++ rest = cs ∧ lexeme ≠ [] := by
  unfold enclosed at h
  split at h
  · cases h
  · next c cs =>
    split at h
    · split at h
      · cases h
      · next d rest' hd =>
        split at h
        · cases h
          have := List.takeWhile_append_dropWhile (p := inner) (l := cs)
          simp [← hd, this]
        · cases h
    · cases h

theorem comment_eq {cs lexeme rest : List Char} (h : comment cs = some (lexeme, rest)) :
    lexeme ++ rest = cs ∧ lexeme ≠ [] := by
  obtain ⟨⟨l, r⟩, hf, he⟩ := Option.map_eq_some_iff.1 h
  obtain ⟨h1, h2⟩ := fixed_eq hf
  cases he
  subst h2
  simp [← h1, List.takeWhile_append_dropWhile]

theorem number_eq {cs lexeme rest : List Char} (h : number cs = some (lexeme, rest)) :
    lexeme ++ rest = cs ∧ lexeme ≠ [] := by
  obtain ⟨⟨l, r⟩, hw, he⟩ := Option.map_eq_some_iff.1 h
  cases he
  refine ⟨?_, ?_⟩
  · rw [List.append_assoc, Text.fraction_append, Text.append_of_whole? hw]
  · simp [Text.ne_nil_of_whole? hw]

end Lexeme

/-! ## The twenty patterns -/

/-- The kinds of lexemes. -/
inductive Pattern
  | blanks
  | comment
  | identifier
  | typeRef
  | doubleQuoted
  | singleQuoted
  | curlyQuoted
  | doubleBar
  | bar
  | doubleAmpersand
  | star
  | plus
  | question
  | openBrace
  | closeBrace
  | openBracket
  | closeBracket
  | number
  | hash
  | comma
  deriving DecidableEq

namespace Pattern

/-- The patterns in the order in which they are tried. -/
def all : List Pattern :=
  [.blanks, .comment, .identifier, .typeRef, .doubleQuoted, .singleQuoted, .curlyQuoted,
   .doubleBar, .bar, .doubleAmpersand, .star, .plus, .question, .openBrace, .closeBrace,
   .openBracket, .closeBracket, .number, .hash, .comma]

/-- The longest lexeme of a pattern in front of a text, and what follows it. -/
def split? : Pattern → List Char → Lexeme.Cut
  | .blanks => Lexeme.run Text.isBlank Text.isBlank
  | .comment => Lexeme.comment
  | .identifier => Lexeme.run isNameStart isNamePart
  | .typeRef => Lexeme.enclosed '<' isNameStart (· = '>') false
  | .doubleQuoted => Lexeme.enclosed '\x22' (· ≠ '\x22') (· = '\x22') false
  | .singleQuoted => Lexeme.enclosed '\x27' (· ≠ '\x27') (· = '\x27') false
  | .curlyQuoted =>
    Lexeme.enclosed '‘' (fun c => c ≠ '‘' && c ≠ '’') (fun c => c = '‘' || c = '’') true
  | .doubleBar => Lexeme.fixed ['|', '|']
  | .bar => Lexeme.fixed ['|']
  | .doubleAmpersand => Lexeme.fixed ['&', '&']
  | .star => Lexeme.fixed ['*']
  | .plus => Lexeme.fixed ['+']
  | .question => Lexeme.fixed ['?']
  | .openBrace => Lexeme.fixed ['\x7b']
  | .closeBrace => Lexeme.fixed ['\x7d']
  | .openBracket => Lexeme.fixed ['[']
  | .closeBracket => Lexeme.fixed [']']
  | .number => Lexeme.number
  | .hash => Lexeme.fixed ['#']
  | .comma => Lexeme.fixed [',']

/-- A lexeme without its first and last character. -/
def inside (lexeme : List Char) : String := String.ofList lexeme.tail.dropLast

/-- The token of a lexeme; blanks and comments have none. -/
def token? : Pattern → List Char → Option Token
  | .blanks, _ | .comment, _ => none
  | .identifier, lexeme => some (.identifier (String.ofList lexeme))
  | .typeRef, lexeme => some (.typeRef (inside lexeme))
  | .doubleQuoted, lexeme | .singleQuoted, lexeme | .curlyQuoted, lexeme =>
    some (.quoted (inside lexeme))
  | .doubleBar, _ => some .doubleBar
  | .bar, _ => some .bar
  | .doubleAmpersand, _ => some .doubleAmpersand
  | .star, _ => some .star
  | .plus, _ => some .plus
  | .question, _ => some .question
  | .openBrace, _ => some .openBrace
  | .closeBrace, _ => some .closeBrace
  | .openBracket, _ => some .openBracket
  | .closeBracket, _ => some .closeBracket
  | .number, lexeme => some (.number (String.ofList lexeme))
  | .hash, _ => some .hash
  | .comma, _ => some .comma

/-- The first pattern that matches in front of a text, its lexeme, and what follows it. -/
def first? (cs : List Char) : Option (Pattern × List Char × List Char) :=
  all.findSome? fun p => (p.split? cs).map fun r => (p, r)

theorem split?_eq {p : Pattern} {cs lexeme rest : List Char}
    (h : p.split? cs = some (lexeme, rest)) : lexeme ++ rest = cs ∧ lexeme ≠ [] := by
  cases p <;> unfold split? at h <;>
    first
    | exact Lexeme.run_eq h
    | exact Lexeme.comment_eq h
    | exact Lexeme.enclosed_eq h
    | exact Lexeme.number_eq h
    | exact ⟨(Lexeme.fixed_eq h).1, by rw [(Lexeme.fixed_eq h).2]; simp⟩

/-- Cutting a lexeme loses no character. -/
theorem append_of_split? {p : Pattern} {cs lexeme rest : List Char}
    (h : p.split? cs = some (lexeme, rest)) : lexeme ++ rest = cs := (split?_eq h).1

/-- A lexeme is never empty. -/
theorem ne_nil_of_split? {p : Pattern} {cs lexeme rest : List Char}
    (h : p.split? cs = some (lexeme, rest)) : lexeme ≠ [] := (split?_eq h).2

/-- The first matching pattern matches. -/
theorem split?_of_first? {p : Pattern} {cs : List Char} {r : List Char × List Char}
    (h : first? cs = some (p, r)) : p.split? cs = some r := by
  obtain ⟨q, _, hq⟩ := List.exists_of_findSome?_eq_some h
  obtain ⟨r', hr, he⟩ := Option.map_eq_some_iff.1 hq
  cases he
  exact hr

/-- What follows a lexeme is shorter than the text. -/
theorem length_lt_of_split? {p : Pattern} {cs lexeme rest : List Char}
    (h : p.split? cs = some (lexeme, rest)) : rest.length < cs.length := by
  have hl := List.length_pos_iff.2 (ne_nil_of_split? h)
  rw [← append_of_split? h, List.length_append]
  omega

/-- What follows the first lexeme is shorter than the text. -/
theorem length_lt_of_first? {p : Pattern} {cs lexeme rest : List Char}
    (h : first? cs = some (p, lexeme, rest)) : rest.length < cs.length :=
  length_lt_of_split? (split?_of_first? h)

end Pattern

end ValueGrammar
