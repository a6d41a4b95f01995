import Mathlib.Algebra.BigOperators.Ring.List
import Mathlib.Algebra.Group.Action.Defs
import Mathlib.Algebra.Order.BigOperators.Group.List
import Mathlib.Algebra.Order.BigOperators.GroupWithZero.List
import Mathlib.Tactic.Ring
import ValueGrammar.Proofs.Language

/-!
# How many samples an enumeration has

A product has as many samples as the product of its parts' numbers, a permutation that many for
each ordering, a subset one less than the product of the numbers raised by one, and a repetition
the sum of the powers of its body's number.

Headlines:
* **`length_sequences`**: a product multiplies.
* **`sum_prod_sublists`**: choosing from every sublist is leaving out or choosing from each member.
* **`length_permutation`**, **`length_subset`**, **`length_repeated`**: the other kinds.
* **`pos_cross`**, **`pos_choice`**, **`pos_permutation`**, **`pos_subset`**: from parts with
  samples, each kind has samples.
-/

namespace ValueGrammar

open Arrangement Generator

/-! ## Products -/

theorem length_choices {α : Type} : ∀ parts : List (List α),
    (Cursor.choices parts).length = (parts.map List.length).prod
  | [] => rfl
  | part :: parts => by
    rw [Cursor.choices, List.length_flatMap, List.map_cons, List.prod_cons, ← length_choices parts]
    simp only [List.length_map, List.map_const', List.sum_replicate, smul_eq_mul]

/-- A product multiplies the numbers of its parts. -/
theorem length_sequences (parts : List (List Sample)) :
    (sequences parts).length = (parts.map List.length).prod := by
  rw [sequences, List.length_map, length_choices]

/-! ## Sublists -/

/-- Choosing from every sublist is leaving out or choosing from each member. -/
theorem sum_prod_sublists (ns : List Nat) :
    (ns.sublists.map List.prod).sum = (ns.map (· + 1)).prod := by
  rw [((List.sublists_perm_sublists' ns).map List.prod).sum_eq]
  induction ns with
  | nil => rfl
  | cons n ns ih =>
    have hcons : List.prod ∘ List.cons n = fun s : List Nat => n * s.prod :=
      funext fun s => List.prod_cons
    rw [List.sublists'_cons, List.map_append, List.sum_append, List.map_map, hcons,
      List.sum_map_mul_left, ih, List.map_cons, List.prod_cons]
    ring

/-- One sublist is empty. -/
theorem sum_sublists_ne_nil (ns : List Nat) :
    ((ns.sublists.filter fun s => decide (s ≠ [])).map List.prod).sum + 1 =
      (ns.sublists.map List.prod).sum := by
  have hp := List.sublists_perm_sublists' ns
  rw [((hp.filter _).map List.prod).sum_eq, (hp.map List.prod).sum_eq]
  induction ns with
  | nil => rfl
  | cons n ns ih =>
    have hall : ((ns.sublists'.map (List.cons n)).filter fun s => decide (s ≠ [])) =
        ns.sublists'.map (List.cons n) := by
      refine List.filter_eq_self.mpr (List.forall_mem_map.mpr fun s _ => ?_)
      exact decide_eq_true (List.cons_ne_nil n s)
    rw [List.sublists'_cons, List.filter_append, hall, List.map_append, List.map_append,
      List.sum_append, List.sum_append, ← ih (List.sublists_perm_sublists' ns)]
    omega

namespace Arrangement

variable {α : Type}

/-- The sublists of some parts are picked by the sublists of their indices. -/
theorem map_pick_sublists (parts : List α) :
    (List.range parts.length).sublists.map (pick parts) = parts.sublists := by
  have hsome : Function.Injective (List.map (some : α → Option α)) :=
    List.map_injective_iff.mpr (Option.some_injective α)
  refine List.map_injective_iff.mpr hsome ?_
  rw [← List.sublists_map, map_some_eq, List.sublists_map, List.map_map]
  refine List.map_congr_left fun s hs => ?_
  have hs := sublist_range_iff.mp (List.mem_sublists.mp hs)
  exact map_some_pick hs.lt_of_mem

/-- The non-empty sublists of some parts are picked by the selections of their indices. -/
theorem map_pick_selections (parts : List α) :
    ((sortedSelections parts.length).map (pick parts)).Perm
      (parts.sublists.filter fun s => decide (s ≠ [])) := by
  have hperm := (List.mergeSort_perm
    ((List.range parts.length).sublists.filter fun s => decide (s ≠ []))
    fun s t => decide (s.length < t.length ∨ s.length = t.length ∧ s ≤ t)).map (pick parts)
  refine hperm.trans (List.Perm.of_eq ?_)
  rw [← map_pick_sublists parts, List.filter_map]
  congr 1
  refine List.filter_congr fun s hs => ?_
  have hs := sublist_range_iff.mp (List.mem_sublists.mp hs)
  have hlen : (pick parts s).length = s.length := length_pick hs.lt_of_mem
  rw [Function.comp_apply, decide_eq_decide, ← List.length_pos_iff, ← List.length_pos_iff, hlen]

end Arrangement

/-! ## Generators -/

theorem length_enumerations (gs : List Generator) :
    (enumerations gs).map List.length = gs.map fun g => g.enumeration.length := by
  rw [enumerations_eq_map, List.map_map]
  rfl

theorem length_choice (gs : List Generator) :
    (choice gs).enumeration.length = (gs.map fun g => g.enumeration.length).sum := by
  rw [enumeration, List.length_flatten, length_enumerations]

theorem length_cross (gs : List Generator) :
    (cross gs).enumeration.length = (gs.map fun g => g.enumeration.length).prod := by
  rw [enumeration, length_sequences, length_enumerations]

/-- A permutation has the samples of a product for each ordering. -/
theorem length_permutation (gs : List Generator) : (permutation gs).enumeration.length =
    gs.length.factorial * (gs.map fun g => g.enumeration.length).prod := by
  have hlen : gs.length = (enumerations gs).length := by rw [enumerations_eq_map, List.length_map]
  have heach : ∀ o ∈ sortedOrderings gs.length, (sequences (pick (enumerations gs) o)).length =
      (gs.map fun g => g.enumeration.length).prod := by
    intro o ho
    rw [mem_sortedOrderings, hlen] at ho
    rw [length_sequences, ((perm_iff_pick.mpr ⟨o, ho, rfl⟩).map List.length).prod_eq,
      length_enumerations]
  rw [enumeration, List.length_flatMap, List.map_congr_left heach, List.map_const',
    List.sum_replicate, smul_eq_mul, length_sortedOrderings]

/-- Of each part one sample or nothing is in a subset's sample, but not nothing of all. -/
theorem length_subset (gs : List Generator) : (subset gs).enumeration.length + 1 =
    (gs.map fun g => g.enumeration.length + 1).prod := by
  have hlen : gs.length = (enumerations gs).length := by rw [enumerations_eq_map, List.length_map]
  have heach : (fun s => (sequences (pick (enumerations gs) s)).length) =
      List.prod ∘ pick (gs.map fun g => g.enumeration.length) := by
    funext s
    rw [length_sequences, ← pick_map, length_enumerations, Function.comp_apply]
  have hperm := map_pick_selections (gs.map fun g => g.enumeration.length)
  rw [List.length_map] at hperm
  rw [enumeration, List.length_flatMap, heach, ← List.map_map, (hperm.map List.prod).sum_eq,
    sum_sublists_ne_nil, sum_prod_sublists, List.map_map]
  rfl

/-- A repetition has the sum of the powers of its body's number. -/
theorem length_repeated (g : Generator) (least most : UInt64) :
    (repeated g least most).enumeration.length =
      ((List.range' least.toNat (most.toNat + 1 - least.toNat)).map
        (g.enumeration.length ^ ·)).sum := by
  rw [enumeration, List.length_flatMap]
  simp only [length_sequences, List.map_replicate, List.prod_replicate]

theorem length_limited (g : Generator) (limit : UInt64) :
    (limited g limit).enumeration.length = min g.enumeration.length limit.toNat := by
  rw [enumeration, List.length_take, Nat.min_comm]

/-! ## Generators with samples -/

section Positive

variable {gs : List Generator}

theorem pos_choice (hne : gs ≠ []) (h : ∀ g ∈ gs, 0 < g.enumeration.length) :
    0 < (choice gs).enumeration.length := by
  obtain ⟨g, hg⟩ := List.exists_mem_of_ne_nil gs hne
  rw [length_choice]
  exact (h g hg).trans_le
    (List.single_le_sum (fun _ _ => Nat.zero_le _) _ (List.mem_map_of_mem hg))

theorem pos_cross (h : ∀ g ∈ gs, 0 < g.enumeration.length) :
    0 < (cross gs).enumeration.length := by
  rw [length_cross]
  exact List.prod_pos (List.forall_mem_map.mpr h)

theorem pos_permutation (h : ∀ g ∈ gs, 0 < g.enumeration.length) :
    0 < (permutation gs).enumeration.length := by
  have hcross := pos_cross h
  rw [length_cross] at hcross
  rw [length_permutation]
  exact Nat.mul_pos (Nat.factorial_pos _) hcross

theorem pos_subset (hne : gs ≠ []) (h : ∀ g ∈ gs, 0 < g.enumeration.length) :
    0 < (subset gs).enumeration.length := by
  obtain ⟨g, gs, rfl⟩ := List.exists_cons_of_ne_nil hne
  have hg := h g List.mem_cons_self
  have hrest : 0 < (gs.map fun g => g.enumeration.length + 1).prod :=
    List.prod_pos (List.forall_mem_map.mpr fun g _ => Nat.succ_pos _)
  have hlen := length_subset (g :: gs)
  rw [List.map_cons, List.prod_cons] at hlen
  have := Nat.le_mul_of_pos_right (g.enumeration.length + 1) hrest
  omega

end Positive

end ValueGrammar
