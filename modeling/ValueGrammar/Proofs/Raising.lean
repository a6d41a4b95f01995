import Mathlib.Data.List.Flatten
import ValueGrammar.Proofs.Congruence
import ValueGrammar.Proofs.Language

/-!
# Raising the limit on repetition

A higher limit on repetition adds values, at any depth of an expression and in any places of the
enumeration, but it loses none and keeps the order of those there were. Sublists pass through
everything that enumerations are made of. A repetition with a higher limit begins with the counts
that it has with the lower one, so that its further values come last.

Headlines:
* **`respected_sublist`**: enumerations respect sublists.
* **`sublist_repeated`**: a repetition of more, up to a higher count, loses nothing.
* **`sublist_of_repetitions_le`**: with a higher limit the values are those with the lower one, in
  the same order, and others among them.
-/

namespace ValueGrammar

open Generator

/-! ## Sublists -/

/-- The choices from shorter lists are among those from the longer ones, in the same order. -/
theorem sublist_choices {α : Type} {ps qs : List (List α)}
    (h : List.Forall₂ List.Sublist ps qs) : (Cursor.choices ps).Sublist (Cursor.choices qs) := by
  induction h with
  | nil => exact List.Sublist.refl _
  | @cons p q ps qs hp _ ih =>
    rw [Cursor.choices, Cursor.choices]
    have hrest : (p.flatMap fun a => (Cursor.choices ps).map (a :: ·)).Sublist
        (p.flatMap fun a => (Cursor.choices qs).map (a :: ·)) :=
      List.Sublist.flatMap_right p fun a _ => ih.map (a :: ·)
    exact hrest.trans (hp.flatMap _)

/-- Enumerations respect sublists. -/
theorem respected_sublist : Respected List.Sublist where
  refl := List.Sublist.refl
  append := List.Sublist.append
  sequences h := (sublist_choices h).map Sample.seq

/-! ## Limits -/

variable {g h : Generator} {k k' : UInt64}

/-- **A repetition of more, up to a higher count, loses nothing**: its counts go on where those up to
the lower one end. -/
theorem sublist_repeated (hgh : g.enumeration.Sublist h.enumeration) (least : UInt64)
    {most most' : UInt64} (hmost : most ≤ most') :
    (repeated g least most).enumeration.Sublist (repeated h least most').enumeration := by
  have hcounts : (List.range' least.toNat (most.toNat + 1 - least.toNat)).Sublist
      (List.range' least.toNat (most'.toNat + 1 - least.toNat)) := by
    have hle := UInt64.le_iff_toNat_le.mp hmost
    exact List.range'_sublist_right.mpr (by omega)
  have hmore := respected_sublist.repeated hgh least most
  rw [enumeration, enumeration] at hmore
  rw [enumeration, enumeration]
  exact hmore.trans (hcounts.flatMap _)

/-- With a higher limit on repetition, a multiplier of more loses nothing. -/
theorem sublist_multiply (hk : k ≤ k') (m : Multiplier)
    (hgh : g.enumeration.Sublist h.enumeration) :
    ((Limits.mk k none).multiply g m).enumeration.Sublist
      ((Limits.mk k' none).multiply h m).enumeration := by
  cases m with
  | optional | counted => exact sublist_repeated hgh _ UInt64.le_rfl
  | zeroOrMore => exact sublist_repeated hgh 0 hk
  | oneOrMore =>
    have hmax : max k 1 ≤ max k' 1 := by
      rw [UInt64.le_iff_toNat_le, toNat_max_one, toNat_max_one]
      exact max_le_max_right 1 (UInt64.le_iff_toNat_le.mp hk)
    exact sublist_repeated hgh 1 hmax
  | commaSeparated =>
    exact respected_sublist.commaSeparated (fun g => .repeated g 0 k) (fun h => .repeated h 0 k')
      (fun hgh => sublist_repeated hgh 0 hk) hgh

/-- **Raising the limit on repetition only adds values.** Without a limit on draws, the values with
a lower limit are a sublist of those with a higher one: none is lost, and their order is kept. -/
theorem sublist_of_repetitions_le (e : Expr) (hk : k ≤ k') :
    (e.compile ⟨k, none⟩).cursor.toList.Sublist (e.compile ⟨k', none⟩).cursor.toList := by
  rw [toList_cursor_compile, toList_cursor_compile]
  exact respected_sublist.expr ⟨k, none⟩ ⟨k', none⟩ (fun m hgh => sublist_multiply hk m hgh) e

/-- Raised from zero to one, the limit adds values between those there were, since it counts for the
list and for what stands behind it. -/
theorem sublist_of_repetitions_le_comma_list :
    let e : Expr := .combined .juxtaposition [.multiplied (.leaf (.identifier "a")) .commaSeparated,
      .multiplied (.group (.combined .oneOf [.leaf (.identifier "b"),
        .multiplied (.leaf (.identifier "c")) .zeroOrMore])) .oneOrMore]
    (0 : UInt64) ≤ 1 ∧
    (e.compile ⟨0, none⟩).cursor.toList.Sublist (e.compile ⟨1, none⟩).cursor.toList ∧
    (e.compile ⟨0, none⟩).cursor.toList.map Sample.render = ["a b", "a"] ∧
    (e.compile ⟨1, none⟩).cursor.toList.map Sample.render =
      ["a b", "a", "a c", "a , a b", "a , a", "a , a c"] := by
  intro e
  exact ⟨by decide, sublist_of_repetitions_le e (by decide), by decide +kernel, by decide +kernel⟩

end ValueGrammar
