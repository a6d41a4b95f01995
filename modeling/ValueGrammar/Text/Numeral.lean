/-!
# Decimal numerals

The numerals of the lexer's number rule, and how counts and limits are read.

A whole numeral is `0`, or digits that do not start with `0`. `whole?` and `fraction` cut numerals
off the front of a text; `natural?` reads a run of digits as a number.

Headlines:
* **`append_of_whole?`**: cutting a numeral loses no character.
* **`natural?_toDigits`**: a number's digits read back as that number.
-/

namespace ValueGrammar.Text

/-- The leading whole numeral and what follows it. -/
def whole? (cs : List Char) : Option (List Char × List Char) :=
  match cs with
  | [] => none
  | c :: rest =>
    if c = '0' then some (['0'], rest)
    else if c.isDigit then some (cs.takeWhile Char.isDigit, cs.dropWhile Char.isDigit)
    else none

/-- The leading point and its digits, if a digit follows the point, and what follows them. -/
def fraction (cs : List Char) : List Char × List Char :=
  match cs with
  | c :: rest =>
    if c = '.' ∧ rest.takeWhile Char.isDigit ≠ [] then
      (c :: rest.takeWhile Char.isDigit, rest.dropWhile Char.isDigit)
    else ([], cs)
  | [] => ([], [])

/-- The number that a non-empty run of digits denotes. -/
def natural? (cs : List Char) : Option Nat :=
  if cs ≠ [] ∧ cs.all Char.isDigit then some (Nat.ofDigitChars 10 cs 0) else none

/-- Cutting a whole numeral loses no character. -/
theorem append_of_whole? {cs ds rest : List Char} (h : whole? cs = some (ds, rest)) :
    ds ++ rest = cs := by
  unfold whole? at h
  split at h
  · cases h
  · split at h
    · next hc => cases h; simp [hc]
    · split at h
      · cases h; exact List.takeWhile_append_dropWhile
      · cases h

/-- A whole numeral is not empty. -/
theorem ne_nil_of_whole? {cs ds rest : List Char} (h : whole? cs = some (ds, rest)) : ds ≠ [] := by
  unfold whole? at h
  split at h
  · cases h
  · split at h
    · cases h; simp
    · split at h
      · next hd => cases h; simp [hd]
      · cases h

/-- Cutting a fraction loses no character. -/
theorem fraction_append (cs : List Char) : (fraction cs).1 ++ (fraction cs).2 = cs := by
  unfold fraction
  split
  · split
    · simp [List.takeWhile_append_dropWhile]
    · rfl
  · rfl

/-- A number's digits read back as that number. -/
theorem natural?_toDigits (n : Nat) : natural? (Nat.toDigits 10 n) = some n := by
  have hne : Nat.toDigits 10 n ≠ [] := by
    intro h
    have := Nat.length_toDigits_pos (b := 10) (n := n)
    simp [h] at this
  have hall : (Nat.toDigits 10 n).all Char.isDigit = true :=
    List.all_eq_true.2 fun c hc => Nat.isDigit_of_mem_toDigits (by decide) (by decide) hc
  rw [natural?, if_pos ⟨hne, hall⟩, Nat.ofDigitChars_toDigits (by decide) (by decide)]

end ValueGrammar.Text
