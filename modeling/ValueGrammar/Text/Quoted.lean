import ValueGrammar.Text.Printable

/-!
# Texts in quotes

The debug form of a string, as it stands in the log lines of tokens.

`quoted` puts a text in double quotes so that every character shows: quotes, backslashes and the
common controls by a letter, and what cannot be seen by its code point.
-/

namespace ValueGrammar.Text

/-- The letter that stands after a backslash for a character with a short escape. -/
def letterFor? (c : Char) : Option Char :=
  if c = '\x00' then some '0'
  else if c = '\t' then some 't'
  else if c = '\n' then some 'n'
  else if c = '\r' then some 'r'
  else if c = '\x22' then some '\x22'
  else if c = '\x5c' then some '\x5c'
  else none

/-- A character inside quotes. -/
def visible (c : Char) : List Char :=
  match letterFor? c with
  | some letter => ['\x5c', letter]
  | none =>
    if isVisible c then [c]
    else '\x5c' :: 'u' :: '\x7b' :: (Nat.toDigits 16 c.toNat ++ ['\x7d'])

/-- A text in quotes. -/
def quoted (s : String) : String :=
  String.ofList ('\x22' :: s.toList.flatMap visible ++ ['\x22'])

end ValueGrammar.Text
