import ValueGrammar.Dictionary
import ValueGrammar.Json.Basic
import ValueGrammar.Text.Numeral

/-!
# Reading JSON

The reader of JSON texts for `to_source_json`, `compile_json` and `json_to_node`.

`Json.parse?` reads the whole of a text as one JSON value: blanks between tokens, all
escapes, surrogate pairs, no control character inside quotes. Of equal keys in an object the last
one counts, and members come out in increasing order of their keys.

The readers take as much text as they need and return what follows. The number of values and
separators that `value?` follows in a row is bounded by its first argument; a text never holds more
of them than it has characters.

Out of scope: where and why a text is no JSON.
-/

namespace ValueGrammar.Json

/-- The four blanks that may stand between tokens. -/
def isSpace (c : Char) : Bool := c = ' ' || c = '\t' || c = '\n' || c = '\r'

/-- Drops the blanks in front. -/
def skipSpace (cs : List Char) : List Char := cs.dropWhile isSpace

/-- Drops a given text in front, if it is there. -/
def expect? (text cs : List Char) : Option (List Char) :=
  if text.isPrefixOf cs then some (cs.drop text.length) else none

/-! ## Texts -/

/-- The character that a letter after a backslash stands for. -/
def unescape? (c : Char) : Option Char :=
  if c = '\x22' then some '\x22'
  else if c = '\x5c' then some '\x5c'
  else if c = '/' then some '/'
  else if c = 'b' then some '\x08'
  else if c = 'f' then some '\x0c'
  else if c = 'n' then some '\n'
  else if c = 'r' then some '\r'
  else if c = 't' then some '\t'
  else none

/-- The value of a hexadecimal digit. -/
def hexDigit? (c : Char) : Option Nat :=
  if c.isDigit then some (c.toNat - '0'.toNat)
  else if 'a' ≤ c ∧ c ≤ 'f' then some (c.toNat - 'a'.toNat + 10)
  else if 'A' ≤ c ∧ c ≤ 'F' then some (c.toNat - 'A'.toNat + 10)
  else none

/-- The number that four hexadecimal digits denote. -/
def unit? (a b c d : Char) : Option Nat := do
  let a ← hexDigit? a
  let b ← hexDigit? b
  let c ← hexDigit? c
  let d ← hexDigit? d
  return ((a * 16 + b) * 16 + c) * 16 + d

/-- The character that two surrogates denote together. -/
def surrogatePair? (high low : Nat) : Option Char :=
  if 0xD800 ≤ high ∧ high < 0xDC00 ∧ 0xDC00 ≤ low ∧ low < 0xE000 then
    some (Char.ofNat (0x10000 + (high - 0xD800) * 0x400 + (low - 0xDC00)))
  else none

/-- Puts a character in front of what was read. -/
def prepend (c : Char) : Option (List Char × List Char) → Option (List Char × List Char) :=
  Option.map fun r => (c :: r.1, r.2)

/-- The text up to the closing quote, its escapes resolved, and what follows the quote. -/
def text? : List Char → Option (List Char × List Char)
  | [] => none
  | c :: rest =>
    if c = '\x22' then some ([], rest)
    else if c = '\x5c' then
      match rest with
      | [] => none
      | e :: rest =>
        match unescape? e with
        | some c => prepend c (text? rest)
        | none =>
          if e = 'u' then
            match rest with
            | h₁ :: h₂ :: h₃ :: h₄ :: rest =>
              match unit? h₁ h₂ h₃ h₄ with
              | none => none
              | some high =>
                if 0xD800 ≤ high ∧ high < 0xE000 then
                  match rest with
                  | b :: u :: l₁ :: l₂ :: l₃ :: l₄ :: rest =>
                    if b = '\x5c' ∧ u = 'u' then
                      match (unit? l₁ l₂ l₃ l₄).bind (surrogatePair? high) with
                      | some c => prepend c (text? rest)
                      | none => none
                    else none
                  | _ => none
                else prepend (Char.ofNat high) (text? rest)
            | _ => none
          else none
    else if c.toNat < 0x20 then none
    else prepend c (text? rest)

/-! ## Numbers -/

/-- The exponent in front, empty if there is none. -/
def exponent? (cs : List Char) : Option (List Char × List Char) :=
  match cs with
  | [] => some ([], [])
  | c :: rest =>
    if c = 'e' ∨ c = 'E' then
      let sign := rest.takeWhile fun d => d = '+' || d = '-'
      let digits := (rest.drop sign.length).takeWhile Char.isDigit
      if sign.length ≤ 1 ∧ digits ≠ [] then
        some (c :: sign ++ digits, (rest.drop sign.length).dropWhile Char.isDigit)
      else none
    else some ([], cs)

/-- The number in front: a natural number if it is spelled without sign, point and exponent. -/
def number? (cs : List Char) : Option (Json × List Char) := do
  let sign := if cs.head? = some '-' then ['-'] else []
  let (digits, rest) ← Text.whole? (cs.drop sign.length)
  let (point, rest) := Text.fraction rest
  let (exponent, rest) ← exponent? rest
  if sign = [] ∧ point = [] ∧ exponent = [] then
    return (.natural (Nat.ofDigitChars 10 digits 0), rest)
  else
    return (.decimal (String.ofList (sign ++ digits ++ point ++ exponent)), rest)

/-! ## Values -/

mutual

/-- The value in front, read in at most `depth` nested steps, and what follows it. -/
def value? : Nat → List Char → Option (Json × List Char)
  | 0, _ => none
  | depth + 1, cs =>
    match skipSpace cs with
    | [] => none
    | c :: rest =>
      if c = '\x22' then (text? rest).map fun r => (.string (String.ofList r.1), r.2)
      else if c = '[' then
        match skipSpace rest with
        | [] => none
        | d :: after =>
          if d = ']' then some (.array [], after)
          else (items? depth rest).map fun r => (.array r.1, r.2)
      else if c = '\x7b' then
        match skipSpace rest with
        | [] => none
        | d :: after =>
          if d = '\x7d' then some (.object [], after)
          else (members? depth [] rest).map fun r => (.object r.1, r.2)
      else if c = 'n' then (expect? "ull".toList rest).map fun r => (.null, r)
      else if c = 't' then (expect? "rue".toList rest).map fun r => (.bool true, r)
      else if c = 'f' then (expect? "alse".toList rest).map fun r => (.bool false, r)
      else number? (c :: rest)

/-- The items of an array up to its closing bracket. -/
def items? : Nat → List Char → Option (List Json × List Char)
  | 0, _ => none
  | depth + 1, cs =>
    match value? depth cs with
    | none => none
    | some (v, rest) =>
      match skipSpace rest with
      | [] => none
      | c :: rest =>
        if c = ',' then (items? depth rest).map fun r => (v :: r.1, r.2)
        else if c = ']' then some ([v], rest)
        else none

/-- The members of an object up to its closing brace, placed among those read before. -/
def members? : Nat → List (String × Json) → List Char → Option (List (String × Json) × List Char)
  | 0, _, _ => none
  | depth + 1, before, cs =>
    match skipSpace cs with
    | [] => none
    | q :: rest =>
      if q = '\x22' then
        match text? rest with
        | none => none
        | some (key, rest) =>
          match skipSpace rest with
          | [] => none
          | c :: rest =>
            if c = ':' then
              match value? depth rest with
              | none => none
              | some (v, rest) =>
                let members := Dictionary.place (String.ofList key) v before
                match skipSpace rest with
                | [] => none
                | c :: rest =>
                  if c = ',' then members? depth members rest
                  else if c = '\x7d' then some (members, rest)
                  else none
            else none
      else none

end

/-- The value that a text denotes, if it is the text of one value. -/
def parse? (s : String) : Option Json :=
  match value? (2 * s.toList.length + 2) s.toList with
  | some (v, rest) => if (skipSpace rest).isEmpty then some v else none
  | none => none

end ValueGrammar.Json
