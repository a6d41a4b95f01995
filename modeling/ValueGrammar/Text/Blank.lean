import ValueGrammar.Text.Ranges

/-!
# Blank characters and trimming

The white space of `trim`, `lines` and the lexer's rule for blanks.

A character is blank when it has the Unicode property White_Space. Trimming, splitting into lines
and the lexer's blank runs all use this one set.

Headlines:
* **`isBlank_iff`**: a character is blank iff it lies in one of the ranges.
* **`isBlank_of_isWhitespace`**: every ASCII whitespace character is blank.
* **`takeWhile_append_strip`**: stripping removes a run of matching characters at each end and
  nothing else.
-/

namespace ValueGrammar.Text

/-- The code points of White_Space, as inclusive ranges in increasing order. -/
def blankRanges : List (Nat × Nat) :=
  [(0x09, 0x0D), (0x20, 0x20), (0x85, 0x85), (0xA0, 0xA0), (0x1680, 0x1680), (0x2000, 0x200A),
   (0x2028, 0x2029), (0x202F, 0x202F), (0x205F, 0x205F), (0x3000, 0x3000)]

/-- Whether a character has the property White_Space. -/
def isBlank (c : Char) : Bool := inRanges c.toNat blankRanges

/-- A character is blank iff it lies in one of the ranges. -/
theorem isBlank_iff (c : Char) :
    isBlank c = true ↔ ∃ r ∈ blankRanges, r.1 ≤ c.toNat ∧ c.toNat ≤ r.2 :=
  inRanges_iff (by unfold Increasing; decide)

/-- Every ASCII whitespace character is blank. -/
theorem isBlank_of_isWhitespace {c : Char} (h : c.isWhitespace = true) : isBlank c = true := by
  simp only [Char.isWhitespace, Bool.or_eq_true, decide_eq_true_eq] at h
  rcases h with ((rfl | rfl) | rfl) | rfl <;> decide

/-! ## Trimming -/

/-- The characters that remain when a run of matching ones is dropped at each end. -/
def strip (p : Char → Bool) (cs : List Char) : List Char :=
  ((cs.dropWhile p).reverse.dropWhile p).reverse

/-- Drops the leading blanks. -/
def trimStart (s : String) : String := String.ofList (s.toList.dropWhile isBlank)

/-- Drops the blanks at both ends. -/
def trim (s : String) : String := String.ofList (strip isBlank s.toList)

/-- Stripping removes a run of matching characters at each end and nothing else. -/
theorem takeWhile_append_strip (p : Char → Bool) (cs : List Char) :
    cs.takeWhile p ++ strip p cs ++ ((cs.dropWhile p).reverse.takeWhile p).reverse = cs := by
  rw [List.append_assoc, strip, ← List.reverse_append, List.takeWhile_append_dropWhile,
    List.reverse_reverse, List.takeWhile_append_dropWhile]

/-! ## Lines -/

/-- The pieces of a text between its newlines, one more than there are newlines. -/
def pieces : List Char → List (List Char)
  | [] => [[]]
  | c :: cs =>
    if c = '\n' then [] :: pieces cs
    else match pieces cs with
      | [] => [[c]]
      | line :: lines => (c :: line) :: lines

/-- The lines of a text, trimmed, without those that are blank. -/
def filledLines (s : String) : List String :=
  ((pieces s.toList).map fun line => trim (String.ofList line)).filter fun line => line ≠ ""

end ValueGrammar.Text
