import Mathlib.Algebra.BigOperators.Intervals
import ValueGrammar.Proofs.Counting
import ValueGrammar.Proofs.Logging
import ValueGrammar.Proofs.Parts

/-!
# Sizes

A generator is counted with words. The count may overflow although the number of values fits: when
a large factor stands beside a part without values, when a part without a size is repeated zero
times, and at the greatest word under a `||`, where one more is counted on the way.

What carries the induction is a floor: a count is *right above a floor* if it is the number, or has
overflowed and the number is not below the floor. Bounds on draws turn an overflow into the bound,
so the floor must not be below them. No count underflows, whatever the floor.

Headlines:
* **`repeatedSize_eq_sum`**: a repetition is counted exactly if the number fits.
* **`counted_generator`**: the generators of well-formed expressions are counted right.
* **`size_is_number_of_values`**: a size is the number of values, and so is the number in the log.
* **`size_eq_if_fits`**: where what is repeated zero times at most has a size, and so has a product
  with a part without values, there is a size if and only if the number of values fits.
-/

namespace ValueGrammar

open Generator

/-! ## Counts that are right -/

namespace Count

/-- **A count is right about a number**: it is the number, or it has overflowed and the number is
not below `floor`. It has not underflowed. -/
def Right (floor : Nat) : Count → Nat → Prop
  | .ok m, n => m = n
  | .error .overflow, n => floor ≤ n
  | .error .underflow, _ => False

variable {floor lower size n N : Nat} {c : Count} {f : Nat → Count}

/-- If a part of a computation overflows, the whole must not be below its floor. -/
theorem right_bind (hc : Right lower c n) (hover : c = .error .overflow → lower ≤ n → floor ≤ N)
    (hf : Right floor (f n) N) : Right floor (c >>= f) N := by
  cases c with
  | ok m =>
    cases hc
    exact hf
  | error fault =>
    cases fault with
    | overflow => exact hover rfl hc
    | underflow => exact hc.elim

theorem right_mono (h : floor ≤ lower) (hc : Right lower c n) : Right floor c n := by
  cases c with
  | ok m => exact hc
  | error fault =>
    cases fault with
    | overflow => exact h.trans hc
    | underflow => exact hc

theorem right_fit (h : floor ≤ size) : Right floor (fit size n) n := by
  unfold fit
  split
  · rfl
  · rename_i hn
    exact h.trans (Nat.not_lt.mp hn)

theorem right_minus {a b : Nat} (h : b ≤ a) : Right floor (minus a b) (a - b) := by
  rw [minus, if_pos h]
  rfl

section Lists

variable {α : Type} {count : α → Count} {number : α → Nat}

theorem right_checkedSum (hfloor : floor ≤ UInt64.size) : ∀ {as : List α} {total : Nat},
    (∀ a ∈ as, Right floor (count a) (number a)) →
      Right floor (checkedSum total (as.map count)) (total + (as.map number).sum)
  | [], _, _ => rfl
  | a :: as, total, h => by
    obtain ⟨ha, has⟩ := List.forall_mem_cons.mp h
    rw [List.map_cons, List.map_cons, List.sum_cons, checkedSum, ← Nat.add_assoc]
    refine right_bind ha (fun _ hle => by omega) ?_
    exact right_bind (right_fit hfloor) (fun _ hle => by omega) (right_checkedSum hfloor has)

/-- A product of numbers that are not zero is not below any of them. -/
theorem right_checkedProduct (hfloor : floor ≤ UInt64.size) : ∀ {as : List α} {total : Nat},
    (∀ a ∈ as, Right floor (count a) (number a)) →
      (0 < floor → 0 < total ∧ ∀ a ∈ as, 0 < number a) →
      Right floor (checkedProduct total (as.map count)) (total * (as.map number).prod)
  | [], total, _, _ => (Nat.mul_one total).symm
  | a :: as, total, h, hpos => by
    obtain ⟨ha, has⟩ := List.forall_mem_cons.mp h
    have hpos' (h0 : 0 < floor) : (0 < total ∧ 0 < number a) ∧ ∀ b ∈ as, 0 < number b := by
      obtain ⟨htotal, hall⟩ := hpos h0
      obtain ⟨hna, hnas⟩ := List.forall_mem_cons.mp hall
      exact ⟨⟨htotal, hna⟩, hnas⟩
    have hprod (h0 : 0 < floor) : 0 < (as.map number).prod :=
      List.prod_pos (List.forall_mem_map.mpr (hpos' h0).2)
    rw [List.map_cons, List.map_cons, List.prod_cons, checkedProduct, ← Nat.mul_assoc]
    refine right_bind ha (fun _ hle => ?_) (right_bind (right_fit hfloor) (fun _ hle => ?_) ?_)
    · rcases Nat.eq_zero_or_pos floor with rfl | h0
      · exact Nat.zero_le _
      · exact (hle.trans (Nat.le_mul_of_pos_left _ (hpos' h0).1.1)).trans
          (Nat.le_mul_of_pos_right _ (hprod h0))
    · rcases Nat.eq_zero_or_pos floor with rfl | h0
      · exact Nat.zero_le _
      · exact hle.trans (Nat.le_mul_of_pos_right _ (hprod h0))
    · refine right_checkedProduct hfloor has fun h0 => ⟨?_, (hpos' h0).2⟩
      exact Nat.mul_pos (hpos' h0).1.1 (hpos' h0).1.2

end Lists

/-! ## Powers -/

/-- A power is computed if it fits: what comes before it is not larger. -/
theorem checkedPower_eq {base : Nat} (hbase : 0 < base) : ∀ {exponent total : Nat}, total < size →
    checkedPower size base exponent total = fit size (total * base ^ exponent)
  | 0, total, h => by rw [checkedPower, Nat.pow_zero, Nat.mul_one, fit, if_pos h]
  | exponent + 1, total, h => by
    rw [checkedPower, Nat.pow_succ', ← Nat.mul_assoc]
    unfold fit
    split
    · rename_i hlt
      exact checkedPower_eq hbase hlt
    · rename_i hge
      rw [if_neg]
      · rfl
      · have := Nat.le_mul_of_pos_right (total * base) (Nat.pow_pos (n := exponent) hbase)
        omega

/-- The sum of the powers of a number with given exponents. -/
def powers (base least most : Nat) : Nat :=
  ((List.range' least (most + 1 - least)).map (base ^ ·)).sum

variable {base least most : Nat}

theorem powers_eq_sum (base least most : Nat) :
    powers base least most = ∑ k ∈ Finset.Icc least most, base ^ k := by
  rw [Nat.Icc_eq_range', powers]
  rfl

theorem pow_le_powers {k : Nat} (h1 : least ≤ k) (h2 : k ≤ most) :
    base ^ k ≤ powers base least most :=
  List.single_le_sum (fun _ _ => Nat.zero_le _) _
    (List.mem_map_of_mem (List.mem_range'_1.mpr (by omega)))

theorem powers_zero (h : least ≤ most) : powers 0 least most = if least = 0 then 1 else 0 := by
  have hrest (first len : Nat) (hfirst : 0 < first) :
      ((List.range' first len).map (0 ^ ·)).sum = 0 := by
    refine List.sum_eq_zero (List.forall_mem_map.mpr fun k hk => ?_)
    exact Nat.zero_pow (hfirst.trans_le (List.mem_range'_1.mp hk).1)
  unfold powers
  split
  · rename_i h0
    subst h0
    rw [Nat.sub_zero, List.range'_succ, List.map_cons, List.sum_cons, hrest 1 most Nat.one_pos,
      Nat.pow_zero]
  · rename_i h0
    exact hrest least _ (Nat.pos_of_ne_zero h0)

theorem powers_one : powers 1 least most = most + 1 - least := by
  simp [powers]

/-- The geometric sum. -/
theorem mul_sum_range' (b : Nat) : ∀ first len : Nat,
    b * ((List.range' first len).map ((b + 1) ^ ·)).sum + (b + 1) ^ first = (b + 1) ^ (first + len)
  | first, 0 => by simp
  | first, len + 1 => by
    rw [List.range'_succ, List.map_cons, List.sum_cons, ← Nat.add_assoc, Nat.add_right_comm,
      ← mul_sum_range' b (first + 1) len]
    ring

theorem powers_eq_div {b : Nat} (h : least ≤ most) :
    ((b + 2) ^ (most + 1) - (b + 2) ^ least) / (b + 1) = powers (b + 2) least most := by
  have hsum := mul_sum_range' (b + 1) least (most + 1 - least)
  rw [show least + (most + 1 - least) = most + 1 by omega] at hsum
  rw [← hsum, Nat.add_sub_cancel, Nat.mul_div_cancel_left _ (Nat.succ_pos b), powers]

theorem size_le_powers {b : Nat} (h : least ≤ most) (hmost : 64 ≤ most) :
    UInt64.size ≤ powers (b + 2) least most :=
  calc UInt64.size = 2 ^ 64 := rfl
    _ ≤ 2 ^ most := Nat.pow_le_pow_right (by decide) hmost
    _ ≤ (b + 2) ^ most := Nat.pow_le_pow_left (by omega) most
    _ ≤ powers (b + 2) least most := pow_le_powers h (le_refl most)

/-- If the next power of a word does not fit two words, the last one does not fit one. -/
theorem size_le_powers_of_double {b : Nat} (h : least ≤ most) (hb : b + 2 < UInt64.size)
    (hdouble : doubleWordSize ≤ (b + 2) ^ (most + 1)) :
    UInt64.size ≤ powers (b + 2) least most := by
  refine Nat.le_trans (Nat.not_lt.mp fun hlt => ?_) (pow_le_powers h (le_refl most))
  have hmul : (b + 2) ^ most * (b + 2) < UInt64.size * UInt64.size :=
    Nat.mul_lt_mul_of_lt_of_le hlt hb.le (by omega)
  rw [← Nat.pow_succ] at hmul
  exact absurd hdouble (Nat.not_le.mpr hmul)

theorem ok_bind (m : Nat) (f : Nat → Count) : (Except.ok m >>= f) = f m := rfl

/-- **The closed form is exact**: it overflows only if the sum of the powers does not fit. -/
theorem right_repeatedSize (h : least ≤ most) (hbase : base < UInt64.size) :
    Right UInt64.size (repeatedSize base least most) (powers base least most) := by
  match base with
  | 0 => exact (powers_zero h).symm
  | 1 =>
    rw [repeatedSize, powers_one, minus_eq_ok.mpr ⟨h, rfl⟩, ok_bind, Nat.sub_add_comm h]
    exact right_fit (le_refl _)
  | b + 2 =>
    have hpow : (b + 2) ^ least ≤ (b + 2) ^ (most + 1) :=
      Nat.pow_le_pow_right (Nat.succ_pos _) (Nat.le_succ_of_le h)
    have hone : 1 < doubleWordSize := by decide
    have h32 : UInt32.size = 4294967296 := rfl
    have h64 : UInt64.size = 18446744073709551616 := rfl
    have hmost : UInt32.size ≤ most + 1 → UInt64.size ≤ powers (b + 2) least most :=
      fun hle => size_le_powers h (by omega)
    simp only [repeatedSize, checkedPower_eq (Nat.succ_pos _) hone, Nat.one_mul]
    refine right_bind (right_fit (le_refl _)) (fun _ hle => hmost (by omega)) ?_
    refine right_bind (right_fit (le_refl _)) (fun _ hle => hmost hle) ?_
    refine right_bind (right_fit (le_refl _))
      (fun _ hle => size_le_powers_of_double h hbase hle) ?_
    refine right_bind (right_fit (le_refl _)) (fun _ hle => hmost (by omega)) ?_
    refine right_bind (right_fit (le_refl _))
      (fun _ hle => size_le_powers_of_double h hbase (hle.trans hpow)) ?_
    rw [minus_eq_ok.mpr ⟨hpow, rfl⟩, ok_bind, minus_eq_ok.mpr ⟨by omega, rfl⟩, ok_bind,
      Nat.add_sub_cancel (n := b + 1) (m := 1), powers_eq_div h]
    exact right_fit (le_refl _)

/-! ## Words -/

theorem lt_of_checkedSum : ∀ {cs : List Count} {total n : Nat}, total < UInt64.size →
    checkedSum total cs = .ok n → n < UInt64.size
  | [], _, _, ht, h => by
    cases h
    exact ht
  | c :: cs, total, n, _, h => by
    obtain ⟨m, -, h⟩ := bind_eq_ok_iff.mp h
    obtain ⟨total', hfit, h⟩ := bind_eq_ok_iff.mp h
    obtain ⟨hlt, rfl⟩ := fit_eq_ok.mp hfit
    exact lt_of_checkedSum hlt h

theorem lt_of_checkedProduct : ∀ {cs : List Count} {total n : Nat}, total < UInt64.size →
    checkedProduct total cs = .ok n → n < UInt64.size
  | [], _, _, ht, h => by
    cases h
    exact ht
  | c :: cs, total, n, _, h => by
    obtain ⟨m, -, h⟩ := bind_eq_ok_iff.mp h
    obtain ⟨total', hfit, h⟩ := bind_eq_ok_iff.mp h
    obtain ⟨hlt, rfl⟩ := fit_eq_ok.mp hfit
    exact lt_of_checkedProduct hlt h

theorem lt_of_repeatedSize (h : repeatedSize base least most = .ok n) : n < UInt64.size := by
  match base with
  | 0 =>
    cases h
    split <;> decide
  | 1 =>
    obtain ⟨difference, -, h⟩ := bind_eq_ok_iff.mp h
    exact (fit_eq_ok.mp h).2 ▸ (fit_eq_ok.mp h).1
  | b + 2 =>
    obtain ⟨_, -, h⟩ := bind_eq_ok_iff.mp h
    obtain ⟨_, -, h⟩ := bind_eq_ok_iff.mp h
    obtain ⟨_, -, h⟩ := bind_eq_ok_iff.mp h
    obtain ⟨_, -, h⟩ := bind_eq_ok_iff.mp h
    obtain ⟨_, -, h⟩ := bind_eq_ok_iff.mp h
    obtain ⟨_, -, h⟩ := bind_eq_ok_iff.mp h
    obtain ⟨_, -, h⟩ := bind_eq_ok_iff.mp h
    exact (fit_eq_ok.mp h).2 ▸ (fit_eq_ok.mp h).1

/-! ## Repetitions -/

/-- **The closed form of a repetition is exact and complete.** For every word as the base and all
words in order as the counts, it gives the sum of the powers if that is a word, and otherwise it
overflows. So no step on the way gives up on a sum that fits, and none underflows. -/
theorem repeatedSize_eq_sum (base least most : UInt64) (h : least ≤ most) :
    repeatedSize base.toNat least.toNat most.toNat =
      if ∑ k ∈ Finset.Icc least.toNat most.toNat, base.toNat ^ k < UInt64.size
      then .ok (∑ k ∈ Finset.Icc least.toNat most.toNat, base.toNat ^ k)
      else .error .overflow := by
  have hright := right_repeatedSize (UInt64.le_iff_toNat_le.mp h) base.toNat_lt
  rw [powers_eq_sum] at hright
  cases hc : repeatedSize base.toNat least.toNat most.toNat with
  | ok m =>
    rw [hc] at hright
    rw [← show m = _ from hright, if_pos (lt_of_repeatedSize hc)]
  | error fault =>
    rw [hc] at hright
    cases fault with
    | overflow => rw [if_neg (Nat.not_lt.mpr hright)]
    | underflow => exact hright.elim

/-- The greatest word is the sum of sixty-four powers of two, and of the first two powers of a
base that is nearly as large; for the next base the sum is not a word. -/
theorem repeatedSize_eq_sum_greatest :
    repeatedSize 2 0 63 = .ok 18446744073709551615 ∧
      repeatedSize 18446744073709551614 0 1 = .ok 18446744073709551615 ∧
      repeatedSize 18446744073709551615 0 1 = .error .overflow :=
  ⟨(repeatedSize_eq_sum 2 0 63 (by decide)).trans (by decide +kernel),
    (repeatedSize_eq_sum 18446744073709551614 0 1 (by decide)).trans (by decide +kernel),
    (repeatedSize_eq_sum 18446744073709551615 0 1 (by decide)).trans (by decide +kernel)⟩

end Count

/-! ## Counts of generators -/

namespace Generator

open ValueGrammar.Count

variable {floor : Nat} {g : Generator} {gs : List Generator}

/-- A count is a word. -/
theorem lt_of_count {n : Nat} : ∀ {g : Generator}, g.count = .ok n → n < UInt64.size
  | .literal _, h => by
    cases h
    decide
  | .choice options, h => lt_of_checkedSum (by decide) h
  | .subset parts, h => by
    obtain ⟨total, htotal, h⟩ := bind_eq_ok_iff.mp h
    obtain ⟨-, rfl⟩ := minus_eq_ok.mp h
    exact (Nat.sub_le _ _).trans_lt (lt_of_checkedProduct (by decide) htotal)
  | .permutation parts, h => by
    obtain ⟨orderings, -, h⟩ := bind_eq_ok_iff.mp h
    obtain ⟨product, -, h⟩ := bind_eq_ok_iff.mp h
    exact (fit_eq_ok.mp h).2 ▸ (fit_eq_ok.mp h).1
  | .cross parts, h => lt_of_checkedProduct (by decide) h
  | .repeated inner least most, h => by
    obtain ⟨base, -, h⟩ := bind_eq_ok_iff.mp h
    exact lt_of_repeatedSize h
  | .limited inner limit, h => by
    rw [count_limited] at h
    split at h
    · cases h
      exact (Nat.min_le_right _ _).trans_lt limit.toNat_lt
    · cases h
      exact limit.toNat_lt
    · cases h

/-- **A generator is counted right**: its count is right about the number of its samples. -/
def Counted (floor : Nat) (g : Generator) : Prop := Right floor g.count g.enumeration.length

theorem not_underflow_of_counted (h : Counted floor g) : g.count ≠ .error .underflow := by
  intro hunder
  rw [Counted, hunder] at h
  exact h

theorem counted_mono {lower : Nat} (h : floor ≤ lower) (hg : Counted lower g) : Counted floor g :=
  right_mono h hg

/-- A generator with a size that is counted right at all is counted right above any floor. -/
theorem counted_of_size (h : Counted 0 g) (hsize : g.size ≠ none) : Counted floor g := by
  rw [Counted] at h ⊢
  cases hc : g.count with
  | ok n =>
    rw [hc] at h
    exact h
  | error fault =>
    rw [Generator.size, hc] at hsize
    exact absurd rfl hsize

theorem counted_literal (text : String) : Counted floor (.literal text) := rfl

theorem counted_choice (hfloor : floor ≤ UInt64.size) (h : ∀ g ∈ gs, Counted floor g) :
    Counted floor (.choice gs) := by
  rw [Counted, count_choice, length_choice, ← Nat.zero_add (List.sum _)]
  exact right_checkedSum hfloor h

/-- What is counted right above any floor if something holds is counted right too if there is a
size: above the floor zero, nothing is asked. -/
theorem counted_of_or_size {P : Prop} (h : ∀ lower ≤ floor, (0 < lower → P) → Counted lower g)
    (hpos : 0 < floor → P ∨ g.size ≠ none) : Counted floor g := by
  rcases Nat.eq_zero_or_pos floor with rfl | h0
  · exact h 0 (Nat.le_refl 0) fun h0 => absurd h0 (Nat.lt_irrefl 0)
  · rcases hpos h0 with hP | hsize
    · exact h floor (Nat.le_refl floor) fun _ => hP
    · exact counted_of_size (h 0 (Nat.zero_le floor) fun h0 => absurd h0 (Nat.lt_irrefl 0)) hsize

theorem counted_cross_of_pos (hfloor : floor ≤ UInt64.size) (h : ∀ g ∈ gs, Counted floor g)
    (hpos : 0 < floor → ∀ g ∈ gs, 0 < g.enumeration.length) : Counted floor (.cross gs) := by
  rw [Counted, count_cross, length_cross, ← Nat.one_mul (List.prod _)]
  exact right_checkedProduct hfloor h fun h0 => ⟨Nat.one_pos, hpos h0⟩

/-- A product is counted right if all its parts have samples, or it has a size. -/
theorem counted_cross (hfloor : floor ≤ UInt64.size) (h : ∀ g ∈ gs, Counted floor g)
    (hpos : 0 < floor → (∀ g ∈ gs, 0 < g.enumeration.length) ∨ (cross gs).size ≠ none) :
    Counted floor (.cross gs) :=
  counted_of_or_size (fun _ hle => counted_cross_of_pos (hle.trans hfloor)
    fun g hg => counted_mono hle (h g hg)) hpos

theorem prod_range'_one : ∀ n : Nat, (List.range' 1 n).prod = n.factorial
  | 0 => rfl
  | n + 1 => by
    rw [List.range'_1_concat, List.prod_append, prod_range'_one n, List.prod_singleton,
      Nat.factorial_succ, Nat.mul_comm, Nat.add_comm 1 n]

/-- The orderings of some parts are counted right. -/
theorem right_orderings (hfloor : floor ≤ UInt64.size) (n : Nat) :
    Right floor (checkedProduct 1 ((List.range' 1 n).map .ok)) n.factorial := by
  have h : Right floor (checkedProduct 1 ((List.range' 1 n).map .ok))
      (1 * ((List.range' 1 n).map id).prod) :=
    right_checkedProduct hfloor (fun _ _ => rfl)
      fun _ => ⟨Nat.one_pos, fun k hk => (List.mem_range'_1.mp hk).1⟩
  rwa [List.map_id, prod_range'_one, Nat.one_mul] at h

theorem counted_permutation_of_pos (hfloor : floor ≤ UInt64.size) (h : ∀ g ∈ gs, Counted floor g)
    (hpos : 0 < floor → ∀ g ∈ gs, 0 < g.enumeration.length) : Counted floor (.permutation gs) := by
  have hproduct := counted_cross_of_pos hfloor h hpos
  have hprod (h0 : 0 < floor) := pos_cross (hpos h0)
  rw [Counted, count_cross, length_cross] at hproduct
  rw [length_cross] at hprod
  rw [Counted, count_permutation, length_permutation]
  refine right_bind (right_orderings hfloor gs.length) (fun _ hle => ?_) ?_
  · rcases Nat.eq_zero_or_pos floor with rfl | h0
    · exact Nat.zero_le _
    · exact hle.trans (Nat.le_mul_of_pos_right _ (hprod h0))
  · refine right_bind hproduct (fun _ hle => ?_) (right_fit hfloor)
    exact hle.trans (Nat.le_mul_of_pos_left _ (Nat.factorial_pos _))

/-- Orderings are counted right if all parts have samples, or there is a size. -/
theorem counted_permutation (hfloor : floor ≤ UInt64.size) (h : ∀ g ∈ gs, Counted floor g)
    (hpos : 0 < floor → (∀ g ∈ gs, 0 < g.enumeration.length) ∨ (permutation gs).size ≠ none) :
    Counted floor (.permutation gs) :=
  counted_of_or_size (fun _ hle => counted_permutation_of_pos (hle.trans hfloor)
    fun g hg => counted_mono hle (h g hg)) hpos

/-- Below the floor, the number of a subset and one more fits: the count itself is one less. -/
theorem counted_subset (hfloor : floor < UInt64.size) (h : ∀ g ∈ gs, Counted floor g) :
    Counted floor (.subset gs) := by
  have hraised : ∀ g ∈ gs, Right (floor + 1)
      (g.count.bind fun n => fit UInt64.size (n + 1)) (g.enumeration.length + 1) :=
    fun g hg => right_bind (h g hg) (fun _ hle => Nat.succ_le_succ hle) (right_fit hfloor)
  have htotal : Right (floor + 1)
      (checkedProduct 1 (gs.map fun g => g.count.bind fun n => fit UInt64.size (n + 1)))
      (1 * (gs.map fun g => g.enumeration.length + 1).prod) :=
    right_checkedProduct (Nat.succ_le_of_lt hfloor) hraised
      fun _ => ⟨Nat.one_pos, fun g _ => Nat.succ_pos _⟩
  rw [Nat.one_mul, ← length_subset] at htotal
  rw [Counted, count_subset, List.map_map]
  exact right_bind htotal (fun _ hle => Nat.le_of_succ_le_succ hle)
    (right_minus (Nat.succ_pos (subset gs).enumeration.length))

/-! ### Repetitions -/

section Repetitions

variable {limits : Limits} {least most : UInt64}

/-- A bounded generator is always counted, provided that its bound is not above the floor: then a
generator that is not counted has more samples than the bound. -/
theorem count_bound {n : UInt64} (hn : limits.draws = some n) (hfloor : n.toNat ≤ floor)
    (h : Counted floor g) :
    (limits.bound g).count = .ok (limits.bound g).enumeration.length := by
  rw [Limits.bound, hn]
  rw [Counted] at h
  rw [count_limited, length_limited]
  cases hc : g.count with
  | ok m =>
    rw [hc] at h
    rw [show m = g.enumeration.length from h]
  | error fault =>
    rw [hc] at h
    cases fault with
    | overflow => rw [Nat.min_eq_right (hfloor.trans h)]
    | underflow => exact h.elim

theorem counted_bound (hdraws : ∀ n, limits.draws = some n → n.toNat ≤ floor)
    (h : Counted floor g) : Counted floor (limits.bound g) := by
  cases hd : limits.draws with
  | none =>
    rw [Limits.bound, hd]
    exact h
  | some n =>
    rw [Counted, count_bound hd (hdraws n hd) h]
    rfl

theorem pos_bound (h : 0 < g.enumeration.length) (hdraws : limits.draws ≠ some 0) :
    0 < (limits.bound g).enumeration.length := by
  cases hd : limits.draws with
  | none =>
    rw [Limits.bound, hd]
    exact h
  | some n =>
    rw [Limits.bound, hd, length_limited]
    refine Nat.lt_min.mpr ⟨h, Nat.pos_of_ne_zero fun h0 => hdraws ?_⟩
    rw [hd, UInt64.toNat_inj.mp (h0.trans UInt64.toNat_zero.symm)]

theorem length_repeated_eq_powers (g : Generator) (least most : UInt64) :
    (repeated g least most).enumeration.length =
      powers g.enumeration.length least.toNat most.toNat :=
  length_repeated g least most

/-- A repetition has samples if something can be drawn. -/
theorem pos_repeated (hle : least ≤ most) (h : 0 < g.enumeration.length)
    (hdraws : limits.draws ≠ some 0) :
    0 < (repeated (limits.bound g) least most).enumeration.length := by
  rw [length_repeated_eq_powers]
  exact (Nat.pow_pos (pos_bound h hdraws)).trans_le
    (pow_le_powers (UInt64.le_iff_toNat_le.mp hle) (le_refl _))

/-- A repetition is counted right, unless a body that is not counted is never drawn. -/
theorem counted_repeated (hfloor : floor ≤ UInt64.size)
    (hdraws : ∀ n, limits.draws = some n → n.toNat ≤ floor) (hle : least ≤ most)
    (h : Counted floor g)
    (hmost : 0 < floor → limits.draws = none → most = 0 → g.size ≠ none) :
    Counted floor (.repeated (limits.bound g) least most) := by
  have hle' := UInt64.le_iff_toNat_le.mp hle
  have hright := counted_bound hdraws h
  rw [Counted] at hright
  rw [Counted, count_repeated, length_repeated_eq_powers]
  cases hc : (limits.bound g).count with
  | ok n =>
    rw [hc] at hright
    obtain rfl : n = (limits.bound g).enumeration.length := hright
    exact right_mono hfloor (right_repeatedSize hle' (lt_of_count hc))
  | error fault =>
    rw [hc] at hright
    cases fault with
    | underflow => exact hright.elim
    | overflow =>
      -- only a generator without a bound is not counted; one power at least has it as a factor
      have hd : limits.draws = none := by
        by_contra hd
        obtain ⟨n, hn⟩ := Option.ne_none_iff_exists'.mp hd
        rw [count_bound hn (hdraws n hn) h] at hc
        cases hc
      have hbound : limits.bound g = g := by rw [Limits.bound, hd]
      rw [hbound] at hc hright ⊢
      rcases Nat.eq_zero_or_pos floor with rfl | h0
      · exact Nat.zero_le _
      · have hm : most.toNat ≠ 0 := fun hm => by
          refine hmost h0 hd (UInt64.toNat_inj.mp hm) ?_
          rw [Generator.size, hc]
          rfl
        exact (Nat.le_trans hright (Nat.le_self_pow hm _)).trans (pow_le_powers hle' (le_refl _))

/-- What is repeated zero times or more has a sample, the empty one. -/
theorem pos_repeated_zero (g : Generator) (most : UInt64) :
    0 < (repeated g 0 most).enumeration.length := by
  rw [length_repeated_eq_powers]
  exact Nat.lt_of_lt_of_le Nat.one_pos (pow_le_powers (k := 0) (Nat.le_refl 0) (Nat.zero_le _))

end Repetitions

end Generator

/-! ## Multipliers -/

/-- Whether the sequences of a multiplier can be counted if those of its body can: a body that has
no size is drawn at all. -/
def Multiplier.Countable (limits : Limits) (body : Generator) : Multiplier → Prop
  | .optional | .oneOrMore | .commaSeparated => True
  | .zeroOrMore => limits.draws = none → limits.repetitions = 0 → body.size ≠ none
  | .counted _ most => limits.draws = none → most = 0 → body.size ≠ none

/-- Whether joined operands can be counted if each of them can: a product with an operand that has
no values has a size itself. -/
def Combinator.Countable (operands : List Generator) (c : Combinator) : Prop :=
  (c = .juxtaposition ∨ c = .allOf) → (∃ g ∈ operands, g.enumeration = []) →
    (c.generator operands).size ≠ none

open ValueGrammar.Count

theorem one_le_max (n : UInt64) : 1 ≤ max n 1 := by
  rw [UInt64.le_iff_toNat_le, toNat_max_one]
  exact Nat.le_max_right _ _

theorem toUInt64_le_toUInt64 {m n : UInt32} (h : m ≤ n) : m.toUInt64 ≤ n.toUInt64 := by
  rw [UInt64.le_iff_toNat_le, UInt32.toNat_toUInt64, UInt32.toNat_toUInt64]
  exact UInt32.le_iff_toNat_le.mp h

section Multipliers

variable {floor : Nat} {limits : Limits} {g : Generator}

/-- A comma before a sample changes no count. -/
theorem count_comma {n : Nat} (h : g.count = .ok n) : (cross [.literal ",", g]).count = .ok n := by
  have hlt : 1 * n < UInt64.size := by
    rw [Nat.one_mul]
    exact lt_of_count h
  rw [count_cross, List.map_cons, List.map_singleton, h, count_literal, checkedProduct, ok_bind,
    fit_eq_ok.mpr ⟨by decide, rfl⟩, ok_bind, checkedProduct, ok_bind, fit_eq_ok.mpr ⟨hlt, rfl⟩,
    Nat.one_mul]
  rfl

/-- A comma list without values has a size. -/
theorem size_commaSeparated_of_count_zero (h : g.count = .ok 0) :
    (limits.multiply g .commaSeparated).size ≠ none := by
  have hbound : (limits.bound (cross [.literal ",", g])).count = .ok 0 := by
    unfold Limits.bound
    cases limits.draws with
    | none => exact count_comma h
    | some n =>
      rw [count_limited, count_comma h]
      exact congrArg Except.ok (Nat.zero_min _)
  have hrest : (repeated (limits.bound (cross [.literal ",", g])) 0 limits.repetitions).count =
      .ok 1 := by
    rw [count_repeated, hbound]
    rfl
  rw [Limits.multiply, Generator.size, count_cross, List.map_cons, List.map_singleton, h, hrest]
  exact Option.some_ne_none 0

/-- A comma list is counted right: without a size of its body, there is no need for that of the
rest. -/
theorem counted_commaSeparated (hfloor : floor ≤ UInt64.size)
    (hdraws : ∀ n, limits.draws = some n → n.toNat ≤ floor) (h : Counted floor g) :
    Counted floor (limits.multiply g .commaSeparated) := by
  have hrest := pos_repeated_zero (limits.bound (cross [.literal ",", g])) limits.repetitions
  cases hc : g.count with
  | ok n =>
    have hpair : Counted floor (cross [.literal ",", g]) := by
      have hn : n = g.enumeration.length := by
        rw [Counted, hc] at h
        exact h
      rw [Counted, count_comma hc, length_cross, List.map_cons, List.map_singleton, List.prod_cons,
        List.prod_singleton, hn]
      exact (Nat.one_mul _).symm
    refine counted_cross hfloor (List.forall_mem_cons.mpr ⟨h, List.forall_mem_singleton.mpr
      (counted_repeated hfloor hdraws UInt64.zero_le hpair fun _ _ _ => ?_)⟩) fun _ => ?_
    · rw [Generator.size, count_comma hc]
      exact Option.some_ne_none n
    · rcases Nat.eq_zero_or_pos n with rfl | hn
      · exact .inr (size_commaSeparated_of_count_zero hc)
      · rw [Counted, hc] at h
        refine .inl (List.forall_mem_cons.mpr ⟨?_, List.forall_mem_singleton.mpr hrest⟩)
        exact (show n = g.enumeration.length from h) ▸ hn
  | error fault =>
    have hover : g.count = .error .overflow := by
      cases fault with
      | overflow => exact hc
      | underflow => exact absurd hc (not_underflow_of_counted h)
    have hlen : (limits.multiply g .commaSeparated).enumeration.length =
        g.enumeration.length * (repeated (limits.bound (cross [.literal ",", g])) 0
          limits.repetitions).enumeration.length := by
      rw [Limits.multiply, length_cross, List.map_cons, List.map_singleton, List.prod_cons,
        List.prod_singleton]
    rw [Counted, hover] at h
    rw [Counted, hlen, Limits.multiply, count_cross, List.map_cons, hover]
    exact Nat.le_trans h (Nat.le_mul_of_pos_right _ hrest)

/-- A countable multiplier keeps counts right. -/
theorem counted_multiply (hfloor : floor ≤ UInt64.size)
    (hdraws : ∀ n, limits.draws = some n → n.toNat ≤ floor) (h : Counted floor g) {m : Multiplier}
    (hm : m.Ordered) (hc : 0 < floor → m.Countable limits g) :
    Counted floor (limits.multiply g m) := by
  cases m with
  | optional =>
    exact counted_repeated hfloor hdraws (by decide) h fun _ _ hmost => absurd hmost (by decide)
  | zeroOrMore => exact counted_repeated hfloor hdraws UInt64.zero_le h hc
  | oneOrMore =>
    have hone := one_le_max limits.repetitions
    refine counted_repeated hfloor hdraws hone h ?_
    rintro - - hmost
    rw [hmost] at hone
    exact absurd hone (by decide)
  | counted least most =>
    have hzero {n : UInt32} (hn : n.toUInt64 = 0) : n = 0 := by
      rw [← UInt32.toNat_inj, ← UInt32.toNat_toUInt64, hn]
      rfl
    exact counted_repeated hfloor hdraws (toUInt64_le_toUInt64 hm) h fun h0 hd hmost =>
      hc h0 hd (hzero hmost)
  | commaSeparated => exact counted_commaSeparated hfloor hdraws h

/-- A countable combinator keeps counts right; a selection does so below the greatest word. -/
theorem counted_combined {gs : List Generator} {c : Combinator} (hfloor : floor ≤ UInt64.size)
    (h : ∀ g ∈ gs, Counted floor g) (hc : 0 < floor → c.Countable gs)
    (hs : c = .anyOf → floor < UInt64.size) : Counted floor (c.generator gs) := by
  have hpos (hproduct : c = .juxtaposition ∨ c = .allOf) (h0 : 0 < floor) :
      (∀ g ∈ gs, 0 < g.enumeration.length) ∨ (c.generator gs).size ≠ none := by
    by_cases hempty : ∃ g ∈ gs, g.enumeration = []
    · exact .inr (hc h0 hproduct hempty)
    · refine .inl fun g hg => List.length_pos_iff.mpr fun hnil => hempty ⟨g, hg, hnil⟩
  cases c with
  | juxtaposition => exact counted_cross hfloor h (hpos (.inl rfl))
  | allOf => exact counted_permutation hfloor h (hpos (.inr rfl))
  | oneOf => exact counted_choice hfloor h
  | anyOf => exact counted_subset (hs rfl) h

end Multipliers

/-! ## Expressions -/

namespace Expr

/-- Whether an expression's own multiplier or combinator is countable under limits. -/
def IsCountable (limits : Limits) : Expr → Prop
  | .multiplied body m => m.Countable limits (body.generator limits)
  | .combined c operands => c.Countable (operands.map (generator limits))
  | .leaf _ | .group _ => True

/-- Whether all multipliers and combinators in an expression are countable under limits. -/
abbrev Countable (limits : Limits) : Expr → Prop := Everywhere (IsCountable limits)

/-- Whether an expression does not join its operands by `||`. -/
def IsNoSelection : Expr → Prop
  | .combined c _ => c ≠ .anyOf
  | .leaf _ | .group _ | .multiplied .. => True

end Expr

open ValueGrammar.Expr

/-- **The generators of well-formed expressions are counted right** above any floor that no bound on
draws exceeds and, if there is a `||`, that fits a word. -/
theorem counted_generator {floor : Nat} {limits : Limits} (hfloor : floor ≤ UInt64.size)
    (hdraws : ∀ n, limits.draws = some n → n.toNat ≤ floor) : ∀ e : Expr, e.WellFormed →
      (0 < floor → e.Countable limits) →
      (floor < UInt64.size ∨ Everywhere IsNoSelection e) → Counted floor (e.generator limits) := by
  intro e
  induction e using Expr.inductionOn with
  | leaf l => exact fun _ _ _ => counted_literal l.text
  | group body ih =>
    intro hw hc hs
    exact ih (everywhere_group.mp hw).2 (fun h0 => (everywhere_group.mp (hc h0)).2)
      (hs.imp_right fun h => (everywhere_group.mp h).2)
  | multiplied body m ih =>
    intro hw hc hs
    obtain ⟨hm, hw⟩ := everywhere_multiplied.mp hw
    have hbody := ih hw (fun h0 => (everywhere_multiplied.mp (hc h0)).2)
      (hs.imp_right fun h => (everywhere_multiplied.mp h).2)
    exact counted_multiply hfloor hdraws hbody hm fun h0 => (everywhere_multiplied.mp (hc h0)).1
  | combined c operands ih =>
    intro hw hc hs
    obtain ⟨-, hw⟩ := everywhere_combined.mp hw
    have hall : ∀ g ∈ operands.map (generator limits), Counted floor g :=
      List.forall_mem_map.mpr fun e he => ih e he (hw e he)
        (fun h0 => (everywhere_combined.mp (hc h0)).2 e he)
        (hs.imp_right fun h => (everywhere_combined.mp h).2 e he)
    rw [generator, generators_eq_map]
    exact counted_combined hfloor hall (fun h0 => (everywhere_combined.mp (hc h0)).1) fun hany =>
      hs.resolve_right fun h => (everywhere_combined.mp h).1 hany

/-! ## Sizes -/

theorem generator_of_compile {e : Expr} {limits : Limits} {g : Generator}
    (h : e.compile limits = .values g) : g = e.generator limits := by
  rw [Expr.compile] at h
  rw [← generator_ungroup]
  split at h
  · cases h
  · cases h
    rfl

theorem toList_ofGenerator (g : Generator) : (Cursor.ofGenerator g).toList = g.enumeration := by
  rw [Cursor.toList_eq_remaining, Cursor.remaining_ofGenerator]

section Values

variable {limits : Limits}

theorem pos_multiply {g : Generator} (hd : limits.draws ≠ some 0) {m : Multiplier} (hm : m.Ordered)
    (h : 0 < g.enumeration.length) : 0 < (limits.multiply g m).enumeration.length := by
  cases m with
  | optional => exact pos_repeated_zero _ _
  | zeroOrMore => exact pos_repeated_zero _ _
  | oneOrMore => exact pos_repeated (one_le_max limits.repetitions) h hd
  | counted least most => exact pos_repeated (toUInt64_le_toUInt64 hm) h hd
  | commaSeparated =>
    exact pos_cross (List.forall_mem_cons.mpr
      ⟨h, List.forall_mem_singleton.mpr (pos_repeated_zero _ _)⟩)

/-- A well-formed expression has values, if something may be drawn. -/
theorem pos_generator (hd : limits.draws ≠ some 0) (e : Expr) (he : e.WellFormed) :
    0 < (e.generator limits).enumeration.length := by
  induction e using Expr.inductionOn with
  | leaf l => exact Nat.one_pos
  | group body ih => exact ih (Expr.everywhere_group.mp he).2
  | multiplied body m ih =>
    obtain ⟨hm, hbody⟩ := Expr.everywhere_multiplied.mp he
    exact pos_multiply hd hm (ih hbody)
  | combined c operands ih =>
    obtain ⟨h2, hall⟩ := Expr.everywhere_combined.mp he
    have hpos : ∀ g ∈ operands.map (Expr.generator limits), 0 < g.enumeration.length :=
      List.forall_mem_map.mpr fun e he => ih e he (hall e he)
    have hne : operands.map (Expr.generator limits) ≠ [] := by
      refine List.ne_nil_of_length_pos ?_
      rw [List.length_map]
      exact Nat.zero_lt_of_lt h2
    rw [Expr.generator, Expr.generators_eq_map]
    cases c with
    | juxtaposition => exact pos_cross hpos
    | allOf => exact pos_permutation hpos
    | anyOf => exact pos_subset hne hpos
    | oneOf => exact pos_choice hne hpos

end Values

/-- With a bound on draws that is not zero, well-formed expressions are countable: everything has a
size, and everything has values. -/
theorem countable_of_draws {limits : Limits} {n : UInt64} (hd : limits.draws = some n)
    (hn : n ≠ 0) {e : Expr} (he : e.WellFormed) : e.Countable limits := by
  have hnone : limits.draws ≠ none := by simp [hd]
  have hzero : limits.draws ≠ some 0 := by simp [hd, hn]
  intro d hpart
  cases d with
  | leaf | group => trivial
  | multiplied body m =>
    cases m with
    | optional | commaSeparated | oneOrMore => trivial
    | zeroOrMore | counted least most => exact fun h => absurd h hnone
  | combined c operands =>
    rintro - ⟨g, hg, hnil⟩
    obtain ⟨d, hd, rfl⟩ := List.mem_map.mp hg
    have hpos := pos_generator hzero d ((everywhere_combined.mp (he.of_part hpart)).2 d hd)
    rw [hnil] at hpos
    exact absurd hpos (Nat.lt_irrefl 0)

/-- The generator of a well-formed expression is counted right above some floor: the bound on draws,
or zero. -/
theorem exists_counted (limits : Limits) {e : Expr} (h : e.WellFormed) :
    ∃ floor, Counted floor (e.generator limits) := by
  cases hd : limits.draws with
  | none =>
    refine ⟨0, counted_generator (Nat.zero_le _) (by simp [hd]) e h ?_ (.inl (by decide))⟩
    exact fun h0 => absurd h0 (Nat.lt_irrefl 0)
  | some n =>
    have hn := n.toNat_lt
    refine ⟨n.toNat, counted_generator hn.le (by simp [hd]) e h (fun h0 => ?_) (.inl hn)⟩
    refine countable_of_draws hd ?_ h
    rintro rfl
    exact absurd h0 (Nat.lt_irrefl 0)

theorem length_eq_of_size {floor n : Nat} {g : Generator} (h : Counted floor g)
    (hn : g.size = some n) : g.enumeration.length = n := by
  rw [Counted] at h
  cases hc : g.count with
  | ok m =>
    rw [hc] at h
    rw [Generator.size, hc] at hn
    cases hn
    exact h.symm
  | error fault =>
    rw [Generator.size, hc] at hn
    cases hn

/-- The only line that the values of an input add to the log at the level of information states
their number. -/
theorem logs_values (filter : LogFilter) (expression input : String) (limits : Limits)
    (listing : Listing) :
    Action.Logs (do
      let compiled ← Action.compile (← Action.parse input) limits
      Action.ifWanted filter .info "valgen::cli::samples" (Action.logCount expression compiled)
      return listing.texts compiled)
      (fun l => l.level = .info → ∃ e, Expr.parse input = .ok e ∧
        l = .counted expression (e.compile limits).cursor.toList.length)
      fun _ => True := by
  refine Action.logs_bind (Action.logs_parse (fun l hl h => absurd h hl) input) fun e he => ?_
  refine Action.logs_bind (Action.logs_compile (fun l hl h => absurd h hl) e limits) fun c hc => ?_
  subst hc
  refine Action.logs_bind (Q := fun _ => True) ?_ fun _ _ => Action.logs_pure trivial
  unfold Action.ifWanted
  split
  · cases hcompile : e.compile limits with
    | text t => exact Action.logs_pure trivial
    | values g =>
      refine Action.logs_log fun l hl _ => ⟨e, he, ?_⟩
      obtain ⟨n, hn, rfl⟩ := Option.map_eq_some_iff.mp (Option.mem_toList.mp hl)
      obtain ⟨floor, hcounted⟩ := exists_counted limits (wellFormed_of_parse he)
      rw [← generator_of_compile hcompile] at hcounted
      rw [hcompile, Compiled.cursor, toList_ofGenerator, length_eq_of_size hcounted hn]
  · exact Action.logs_pure trivial

/-- The same for an expression whose type references are expanded first. -/
theorem logs_samplesAt (filter : LogFilter) (expression : String) (types : TypeTable)
    (limits : Limits) (listing : Listing) :
    Action.Logs (Action.samplesAt filter expression types limits listing)
      (fun l => l.level = .info → ∃ input e,
        (if types.isEmpty then .ok expression else
          (types.expand expression).map Expansion.text) = .ok input ∧ Expr.parse input = .ok e ∧
        l = .counted expression (e.compile limits).cursor.toList.length)
      fun _ => True := by
  unfold Action.samplesAt
  split
  · refine Action.logs_bind (Action.logs_pure (Q := fun input => input = expression) rfl) ?_
    rintro input rfl
    refine Action.logs_mono (fun l hl h => ?_) (logs_values filter input input limits listing)
    obtain ⟨e, he⟩ := hl h
    exact ⟨input, e, rfl, he⟩
  · refine Action.logs_bind (Action.logs_expansion (fun l hl h => absurd h hl) expression types)
      fun input hinput => ?_
    refine Action.logs_mono (fun l hl h => ?_) (logs_values filter expression input limits listing)
    obtain ⟨e, he⟩ := hl h
    exact ⟨input, e, hinput, he⟩

/-- **A size is the number of values.** The size of a well-formed expression's generator, if there
is one, is the number of its values, and no difference on the way to it is negative. So the line
that a listing logs at the level of information, whatever the filter of the log, states the number
of the values that it lists. -/
theorem size_is_number_of_values :
    (∀ (e : Expr) (limits : Limits) (g : Generator), e.WellFormed → e.compile limits = .values g →
      (∀ n, g.size = some n → (Cursor.ofGenerator g).toList.length = n) ∧
        g.count ≠ .error .underflow) ∧
    ∀ (filter : LogFilter) (expression : String) (types : TypeTable) (limits : Limits)
      (listing : Listing),
      ∀ l ∈ (Action.samplesAt filter expression types limits listing).outcome.2, l.level = .info →
        ∃ input e, (if types.isEmpty then .ok expression else
            (types.expand expression).map Expansion.text) = .ok input ∧
          Expr.parse input = .ok e ∧
          l = .counted expression (e.compile limits).cursor.toList.length := by
  refine ⟨fun e limits g hw hg => ?_, fun filter expression types limits listing l hl => ?_⟩
  · obtain ⟨floor, hcounted⟩ := exists_counted limits hw
    rw [← generator_of_compile hg] at hcounted
    refine ⟨fun n hn => ?_, not_underflow_of_counted hcounted⟩
    rw [toList_ofGenerator, length_eq_of_size hcounted hn]
  · obtain ⟨lines, hlines, hP, -⟩ := logs_samplesAt filter expression types limits listing []
    rw [List.nil_append] at hlines
    exact hP l (hlines ▸ hl)

/-- Six orderings, of which three are drawn, give thirteen values when they are repeated at most
twice. -/
theorem size_is_number_of_values_drawn :
    ∃ (e : Expr) (g : Generator),
      (e.WellFormed ∧ e.compile { repetitions := 2, draws := some 3 } = .values g ∧
        g.size = some 13 ∧ (Cursor.ofGenerator g).toList.length = 13 ∧
        g.count ≠ .error .underflow) ∧
      ∃ l ∈ (Action.samplesAt (.upTo 3) "<t>*" (.ofList [("t", "a && b && c")])
          { repetitions := 2, draws := some 3 } {}).outcome.2,
        l = .counted "<t>*" 13 ∧ ∃ input d, Expr.parse input = .ok d ∧
          l = .counted "<t>*"
            (d.compile { repetitions := 2, draws := some 3 }).cursor.toList.length := by
  let e : Expr := .multiplied (.group (.combined .allOf
    [.leaf (.identifier "a"), .leaf (.identifier "b"), .leaf (.identifier "c")])) .zeroOrMore
  have hparse : Expr.parse "[a && b && c]*" = .ok e := by decide +kernel
  have hw : e.WellFormed := wellFormed_of_parse hparse
  have hsize : (e.generator { repetitions := 2, draws := some 3 }).size = some 13 := by
    decide +kernel
  obtain ⟨hlen, hcount⟩ :=
    size_is_number_of_values.1 e { repetitions := 2, draws := some 3 } _ hw rfl
  have hlog : .counted "<t>*" 13 ∈ (Action.samplesAt (.upTo 3) "<t>*"
      (.ofList [("t", "a && b && c")]) { repetitions := 2, draws := some 3 } {}).outcome.2 := by
    decide +kernel
  obtain ⟨input, d, -, hd, hl⟩ := size_is_number_of_values.2 _ _ _ _ _ _ hlog rfl
  exact ⟨e, _, ⟨hw, rfl, hsize, hlen 13 hsize, hcount⟩, _, hlog, rfl, input, d, hd, hl⟩

/-! ## Numbers of values that fit -/

/-- A generator that is counted right has a size if and only if its number fits, provided that a
number that is not below the floor does not fit. -/
theorem size_of_counted (floor : Nat) {g : Generator} (h : Counted floor g)
    (hfloor : floor ≤ g.enumeration.length → UInt64.size ≤ g.enumeration.length) :
    g.size = if g.enumeration.length < UInt64.size then some g.enumeration.length else none := by
  rw [Counted] at h
  cases hc : g.count with
  | ok n =>
    rw [hc] at h
    have hn : n = g.enumeration.length := h
    rw [← hn, if_pos (lt_of_count hc), Generator.size, hc]
    rfl
  | error fault =>
    rw [hc] at h
    cases fault with
    | overflow =>
      rw [if_neg (Nat.not_lt.mpr (hfloor h)), Generator.size, hc]
      rfl
    | underflow => exact h.elim

/-- **There is a size if and only if the number of values fits a word**, for what is read under
limits that make it countable, and at the greatest word without a `||`. -/
theorem size_eq_if_fits {input : String} {e : Expr} {limits : Limits} {g : Generator}
    (he : Expr.parse input = .ok e) (hg : e.compile limits = .values g)
    (hc : e.Countable limits)
    (hs : (Cursor.ofGenerator g).toList.length = UInt64.size - 1 → Everywhere IsNoSelection e) :
    g.size = if (Cursor.ofGenerator g).toList.length < UInt64.size then
      some (Cursor.ofGenerator g).toList.length else none := by
  rw [toList_ofGenerator] at hs ⊢
  have hw := wellFormed_of_parse he
  have hword (n : UInt64) : n.toNat ≤ UInt64.size - 1 := Nat.le_sub_one_of_lt n.toNat_lt
  have hgen := generator_of_compile hg
  by_cases hlast : g.enumeration.length = UInt64.size - 1
  · -- without a `||`, nothing on the way is greater than the number itself
    refine size_of_counted UInt64.size ?_ id
    rw [hgen]
    exact counted_generator (Nat.le_refl _) (fun n _ => (hword n).trans (Nat.sub_le _ _)) e hw
      (fun _ => hc) (.inr (hs hlast))
  · refine size_of_counted (UInt64.size - 1) ?_ fun hle => ?_
    · rw [hgen]
      exact counted_generator (Nat.sub_le _ _) (fun n _ => hword n) e hw (fun _ => hc)
        (.inl (by decide))
    · exact Nat.le_of_pred_lt (lt_of_le_of_ne hle (Ne.symm hlast))

/-- At most 63 choices of two give as many values as the greatest word can count; and one value at
least, where none can be drawn, is none. -/
theorem size_eq_if_fits_greatest :
    (∃ (e : Expr) (g : Generator), Expr.parse "[a | b]{0,63}" = .ok e ∧ e.compile {} = .values g ∧
      e.Countable {} ∧ Everywhere IsNoSelection e ∧
      (Cursor.ofGenerator g).toList.length = UInt64.size - 1 ∧
      g.size = some (UInt64.size - 1)) ∧
    ∃ (e : Expr) (g : Generator), Expr.parse "a+" = .ok e ∧
      e.compile { draws := some 0 } = .values g ∧ e.Countable { draws := some 0 } ∧
      (Cursor.ofGenerator g).toList.length = 0 ∧ g.size = some 0 := by
  let choice : Expr := .combined .oneOf [.leaf (.identifier "a"), .leaf (.identifier "b")]
  let e : Expr := .multiplied (.group choice) (.counted 0 63)
  let more : Expr := .multiplied (.leaf (.identifier "a")) .oneOrMore
  have hparse : Expr.parse "[a | b]{0,63}" = .ok e := by decide +kernel
  have hcompile : e.compile {} = .values (e.generator {}) := rfl
  have hc : e.Countable {} := by
    refine everywhere_multiplied.mpr ⟨fun _ hmost => absurd hmost (by decide), ?_⟩
    refine everywhere_group.mpr ⟨trivial, everywhere_pair.mpr ⟨?_, ?_⟩⟩
    · exact fun hproduct => absurd hproduct (by decide)
    · exact ⟨everywhere_leaf.mpr trivial, everywhere_leaf.mpr trivial⟩
  have hs : Everywhere IsNoSelection e := by
    refine everywhere_multiplied.mpr ⟨trivial, everywhere_group.mpr ⟨trivial, ?_⟩⟩
    refine everywhere_pair.mpr ⟨(by decide : Combinator.oneOf ≠ .anyOf), ?_⟩
    exact ⟨everywhere_leaf.mpr trivial, everywhere_leaf.mpr trivial⟩
  have hlen : (Cursor.ofGenerator (e.generator {})).toList.length = UInt64.size - 1 := by
    rw [toList_ofGenerator]
    exact (length_repeated _ _ _).trans (by decide)
  have hsize := size_eq_if_fits hparse hcompile hc fun _ => hs
  rw [hlen, if_pos (by decide)] at hsize
  have hparse' : Expr.parse "a+" = .ok more := by decide +kernel
  have hcompile' : more.compile { draws := some 0 } =
      .values (more.generator { draws := some 0 }) := rfl
  have hc' : more.Countable { draws := some 0 } :=
    everywhere_multiplied.mpr ⟨trivial, everywhere_leaf.mpr trivial⟩
  have hlen' : (Cursor.ofGenerator (more.generator { draws := some 0 })).toList.length = 0 := by
    decide +kernel
  have hsize' := size_eq_if_fits hparse' hcompile' hc' fun h =>
    absurd (hlen'.symm.trans h) (by decide)
  rw [hlen', if_pos (by decide)] at hsize'
  exact ⟨⟨e, _, hparse, hcompile, hc, hs, hlen, hsize⟩,
    more, _, hparse', hcompile', hc', hlen', hsize'⟩

/-- **Few values without a size**: a body without a size that is repeated zero times, one less than
the size of a word under a `||`, and no values at all beside too many orderings. -/
theorem size_none_of_few :
    (∃ (e : Expr) (g : Generator), Expr.parse "[[a | b]{64}]{0}" = .ok e ∧
      e.compile {} = .values g ∧
      (Cursor.ofGenerator g).toList.length = 1 ∧ g.size = none) ∧
    (∃ (e : Expr) (g : Generator), Expr.parse "[a | b]{0,62} || a" = .ok e ∧
      e.compile {} = .values g ∧
      (Cursor.ofGenerator g).toList.length = UInt64.size - 1 ∧ g.size = none) ∧
    ∃ (e : Expr) (g : Generator),
      Expr.parse (" && ".intercalate ("a+" :: List.replicate 20 "a")) = .ok e ∧
      e.compile { draws := some 0 } = .values g ∧
      (Cursor.ofGenerator g).toList.length = 0 ∧ g.size = none := by
  let a : Expr := .leaf (.identifier "a")
  let choice : Expr := .group (.combined .oneOf [a, .leaf (.identifier "b")])
  refine ⟨⟨.multiplied (.group (.multiplied choice (.counted 64 64))) (.counted 0 0), _,
      by decide +kernel, rfl, ?_, by decide +kernel⟩,
    ⟨.combined .anyOf [.multiplied choice (.counted 0 62), a], _,
      by decide +kernel, rfl, ?_, by decide +kernel⟩,
    ⟨.combined .allOf (.multiplied a .oneOrMore :: List.replicate 20 a), _,
      by decide +kernel, rfl, ?_, by decide +kernel⟩⟩
  all_goals rw [toList_ofGenerator]
  · exact length_repeated _ _ _
  · have hpowers := length_repeated (choice.generator {}) 0 62
    have hsubset := length_subset [.repeated (choice.generator {}) 0 62, .literal "a"]
    rw [List.map_cons, hpowers] at hsubset
    exact Nat.succ_inj.mp (hsubset.trans (by decide))
  · exact (length_permutation _).trans (by decide +kernel)

end ValueGrammar
