import ValueGrammar.Generator.Basic
import ValueGrammar.Word

/-!
# Counting samples

Model of the sizes of `Generator` (`size`, `product_size`, `repeat_size`).

`Generator.count` counts the samples of a generator without listing them, in words of 64 bits
(powers in words of 128). It gives up when a number on the way does not fit its word, and it has no
answer when a larger number would be taken from a smaller one. Numbers are added and multiplied from
left to right, so the order of the parts can decide whether it gives up. `Generator.size` is the
count, if there is one.

Headlines:
* **`counts_eq_map`**: several generators are counted one by one.
* **`count_choice`**, **`count_cross`**, **`count_repeated`** and so on: the count of a generator
  from the counts of its parts.
-/

namespace ValueGrammar

/-! ## Sums, products and powers -/

/-- The numbers of 128 bits are those below this one. -/
def doubleWordSize : Nat := UInt64.size * UInt64.size

/-- Adds numbers from left to right, as long as all are there and the sum fits. -/
def checkedSum : Nat → List Count → Count
  | total, [] => .ok total
  | total, n :: ns => do
    let n ← n
    let total ← fit UInt64.size (total + n)
    checkedSum total ns

/-- Multiplies numbers from left to right, as long as all are there and the product fits. -/
def checkedProduct : Nat → List Count → Count
  | total, [] => .ok total
  | total, n :: ns => do
    let n ← n
    let total ← fit UInt64.size (total * n)
    checkedProduct total ns

/-- A number times a power, as long as it fits a word of a given size. -/
def checkedPower (size base : Nat) : Nat → Nat → Count
  | 0, total => .ok total
  | n + 1, total => do
    let total ← fit size (total * base)
    checkedPower size base n total

/-- The number of sequences of `least` to `most` things, each one of `base`: the sum of the powers
of `base`, for `base ≥ 2` by the closed form of the geometric sum. -/
def repeatedSize (base least most : Nat) : Count :=
  match base with
  | 0 => .ok (if least = 0 then 1 else 0)
  | 1 => do
    let difference ← minus most least
    fit UInt64.size (difference + 1)
  | base => do
    let upper ← fit UInt64.size (most + 1)
    let upper ← fit UInt32.size upper
    let high ← checkedPower doubleWordSize base upper 1
    let lower ← fit UInt32.size least
    let low ← checkedPower doubleWordSize base lower 1
    let difference ← minus high low
    let divisor ← minus base 1
    fit UInt64.size (difference / divisor)

/-! ## Generators -/

namespace Generator

mutual

/-- The number of samples of a generator, if it can be counted with words. -/
def count : Generator → Count
  | .literal _ => .ok 1
  | .choice options => checkedSum 0 (counts options)
  | .subset parts => do
    -- a part is left out or gives one of its samples, but not all parts are left out
    let total ← checkedProduct 1 ((counts parts).map fun c => c.bind fun n => fit UInt64.size (n + 1))
    minus total 1
  | .permutation parts => do
    let orderings ← checkedProduct 1 ((List.range' 1 parts.length).map .ok)
    let product ← checkedProduct 1 (counts parts)
    fit UInt64.size (orderings * product)
  | .cross parts => checkedProduct 1 (counts parts)
  | .repeated inner least most => do
    let base ← inner.count
    repeatedSize base least.toNat most.toNat
  | .limited inner limit =>
    match inner.count with
    | .ok n => .ok (min n limit.toNat)
    | .error .overflow => .ok limit.toNat
    | .error .underflow => .error .underflow

/-- The number of samples of each of several generators. -/
def counts : List Generator → List Count
  | [] => []
  | g :: gs => g.count :: counts gs

end

@[simp] theorem counts_eq_map : ∀ gs : List Generator, counts gs = gs.map count
  | [] => rfl
  | g :: gs => congrArg (g.count :: ·) (counts_eq_map gs)

@[simp] theorem count_literal (text : String) : (literal text).count = .ok 1 := rfl

@[simp] theorem count_choice (gs : List Generator) :
    (choice gs).count = checkedSum 0 (gs.map count) := by
  rw [← counts_eq_map]
  rfl

@[simp] theorem count_subset (gs : List Generator) :
    (subset gs).count = (do
      let total ← checkedProduct 1
        ((gs.map count).map fun c => c.bind fun n => fit UInt64.size (n + 1))
      minus total 1) := by
  rw [← counts_eq_map]
  rfl

@[simp] theorem count_permutation (gs : List Generator) :
    (permutation gs).count = (do
      let orderings ← checkedProduct 1 ((List.range' 1 gs.length).map .ok)
      let product ← checkedProduct 1 (gs.map count)
      fit UInt64.size (orderings * product)) := by
  rw [← counts_eq_map]
  rfl

@[simp] theorem count_cross (gs : List Generator) :
    (cross gs).count = checkedProduct 1 (gs.map count) := by
  rw [← counts_eq_map]
  rfl

@[simp] theorem count_repeated (g : Generator) (least most : UInt64) :
    (repeated g least most).count =
      g.count >>= fun base => repeatedSize base least.toNat most.toNat := rfl

@[simp] theorem count_limited (g : Generator) (limit : UInt64) : (limited g limit).count =
    match g.count with
    | .ok n => .ok (min n limit.toNat)
    | .error .overflow => .ok limit.toNat
    | .error .underflow => .error .underflow := rfl

/-- The number of samples of a generator, if there is a count. -/
def size (g : Generator) : Option Nat := g.count.toOption

end Generator

end ValueGrammar
