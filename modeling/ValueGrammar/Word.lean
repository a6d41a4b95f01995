/-!
# Words

The checked operations on numbers of 32, 64 and 128 bits that sizes are computed with.

Numbers are kept in words of a fixed size. A number that does not fit its word overflows, and a
difference underflows when a larger number would be taken from a smaller one.

Headlines:
* **`fit_eq_ok`**, **`minus_eq_ok`**: a number that fits is kept, a difference is taken if there
  is one.
-/

namespace ValueGrammar

/-- Why a computation with words has no result. -/
inductive WordFault
  /-- A number does not fit its word. -/
  | overflow
  /-- A larger number is taken from a smaller one. -/
  | underflow
  deriving DecidableEq

/-- A number that was computed with words, or why there is none. -/
abbrev Count := Except WordFault Nat

/-- A number, if it is less than the size of a word. -/
def fit (size n : Nat) : Count := if n < size then .ok n else .error .overflow

/-- A difference, if it is not negative. -/
def minus (a b : Nat) : Count := if b ≤ a then .ok (a - b) else .error .underflow

/-- A number that fits is kept. -/
theorem fit_eq_ok {size n m : Nat} : fit size n = .ok m ↔ n < size ∧ m = n := by
  unfold fit
  split
  · next h => simp [h, eq_comm]
  · next h => simp [h]

/-- A difference is taken if there is one. -/
theorem minus_eq_ok {a b m : Nat} : minus a b = .ok m ↔ b ≤ a ∧ m = a - b := by
  unfold minus
  split
  · next h => simp [h, eq_comm]
  · next h => simp [h]

end ValueGrammar
