import Mathlib.Data.List.Permutation
import Mathlib.Data.List.Sort
import ValueGrammar.Proofs.Walking

/-!
# Orderings come in lexicographic order

The walk through the orderings is compared with the sorted list of all permutations of the indices.
The next ordering cuts a list at its pivot, behind which it decreases, and once more at the last
index that is larger than the pivot (`nextOrdering?_cut`). Then the argument rests on two extremes:
among the orderings of some numbers the increasing one is the first and the decreasing one the last.

Headlines:
* **`nextOrdering?_eq_some`**: no ordering lies between an ordering and the next one.
* **`exists_larger?`**: behind a pivot there is always a larger index.
* **`toList_orderings`**: the orderings are the sorted permutations of the indices.
* **`walk_gives_all_orderings`**: what the walk hands out, and that it then stays at its end.
-/

namespace ValueGrammar.Arrangement

/-! ## All orderings, sorted -/

/-- The orderings of `0, …, n - 1`, sorted lexicographically. -/
def sortedOrderings (n : Nat) : List (List Nat) :=
  (List.range n).permutations.mergeSort fun s t => decide (s ≤ t)

theorem mem_sortedOrderings {n : Nat} {l : List Nat} :
    l ∈ sortedOrderings n ↔ l.Perm (List.range n) := by
  rw [sortedOrderings, List.mem_mergeSort, List.mem_permutations]

theorem pairwise_sortedOrderings (n : Nat) : (sortedOrderings n).Pairwise (· < ·) := by
  have hle : (sortedOrderings n).Pairwise (· ≤ ·) := by
    refine (List.pairwise_mergeSort (fun a b c => ?_) (fun a b => ?_) _).imp of_decide_eq_true
    · simpa using le_trans
    · simpa using le_total a b
  have hne : (sortedOrderings n).Nodup :=
    (List.mergeSort_perm _ _).nodup_iff.mpr (List.nodup_permutations _ List.nodup_range)
  exact (hle.and hne).imp fun h => lt_of_le_of_ne h.1 h.2

theorem orderingCount_eq_factorial : ∀ n, orderingCount n = n.factorial
  | 0 => rfl
  | n + 1 => by rw [orderingCount, orderingCount_eq_factorial n, Nat.factorial_succ]

theorem length_sortedOrderings (n : Nat) : (sortedOrderings n).length = n.factorial := by
  rw [sortedOrderings, List.length_mergeSort, List.length_permutations, List.length_range]

/-- The increasing one of some numbers' orderings is the first. -/
theorem not_lt_of_ascending : ∀ {l m : List Nat}, l.Pairwise (· ≤ ·) → m.Perm l → ¬ m < l
  | [], m, _, _ => List.not_lt_nil m
  | a :: l, m, hl, hp => by
    obtain ⟨ha, htail⟩ := List.pairwise_cons.mp hl
    cases m with
    | nil => exact absurd hp.length_eq (by simp)
    | cons c m =>
      rw [List.cons_lt_cons_iff]
      rintro (hc | ⟨rfl, hc⟩)
      · rcases List.mem_cons.mp (hp.subset List.mem_cons_self) with rfl | hm
        · exact Nat.lt_irrefl _ hc
        · exact Nat.not_lt.mpr (ha c hm) hc
      · exact not_lt_of_ascending htail hp.cons_inv hc

/-- The decreasing one of some numbers' orderings is the last. -/
theorem not_lt_of_descending : ∀ {l m : List Nat}, l.Pairwise (· ≥ ·) → m.Perm l → ¬ l < m
  | [], m, _, hp => by rw [hp.eq_nil]; exact List.not_lt_nil []
  | a :: l, m, hl, hp => by
    obtain ⟨ha, htail⟩ := List.pairwise_cons.mp hl
    cases m with
    | nil => exact List.not_lt_nil _
    | cons c m =>
      rw [List.cons_lt_cons_iff]
      rintro (hc | ⟨rfl, hc⟩)
      · rcases List.mem_cons.mp (hp.subset List.mem_cons_self) with rfl | hm
        · exact Nat.lt_irrefl _ hc
        · exact Nat.not_lt.mpr (ha c hm) hc
      · exact not_lt_of_descending htail hp.cons_inv hc

/-! ## Cutting a list at two places -/

section Cut

variable (before front back : List Nat) (a b : Nat)

theorem getElem?_cut :
    (before ++ a :: (front ++ b :: back))[before.length]? = some a ∧
      (before ++ a :: (front ++ b :: back))[before.length + 1 + front.length]? = some b := by
  refine ⟨by simp, ?_⟩
  rw [← length_cut before front a, ← List.cons_append, ← List.append_assoc]
  simp

theorem lessAt_cut : lessAt (before ++ a :: (front ++ b :: back)) before.length
    (before.length + 1 + front.length) = decide (a < b) := by
  obtain ⟨ha, hb⟩ := getElem?_cut before front back a b
  rw [lessAt, ha, hb]

theorem exchange_cut : exchange (before ++ a :: (front ++ b :: back)) before.length
    (before.length + 1 + front.length) = before ++ b :: (front ++ a :: back) := by
  obtain ⟨ha, hb⟩ := getElem?_cut before front back a b
  have hfirst : (before ++ a :: (front ++ b :: back)).set before.length b =
      (before ++ b :: front) ++ b :: back := by simp
  rw [exchange, ha, hb]
  simp only [hfirst, ← length_cut before front b]
  simp

theorem reverseFrom_cut (rest : List Nat) :
    reverseFrom (before ++ b :: rest) (before.length + 1) = before ++ b :: rest.reverse := by
  have hlen : before.length + 1 = (before ++ [b]).length := by simp
  rw [List.append_cons, hlen, reverseFrom, List.take_left, List.drop_left, List.append_assoc,
    List.singleton_append]

end Cut

/-! ## The pivot -/

section Pivot

variable {l before after : List Nat} {a pivot : Nat}

/-- A list descends from a place on if no later index is less than the one behind it. -/
theorem descending_of_lessAt (before : List Nat)
    (h : ∀ j, before.length ≤ j → j + 1 < (before ++ after).length →
      lessAt (before ++ after) j (j + 1) = false) : after.Pairwise (· ≥ ·) := by
  refine List.isChain_iff_pairwise.mp ?_
  refine List.isChain_iff_forall_rel_of_append_cons_cons.mpr fun a b front back hcut => ?_
  subst hcut
  have hlen : (before ++ front).length + 1 < (before ++ (front ++ a :: b :: back)).length := by
    rw [← List.append_assoc, length_cut, List.length_cons]
    omega
  have hless := h (before ++ front).length (by simp) hlen
  have hcut := lessAt_cut (before ++ front) [] back a b
  rw [List.nil_append, List.append_assoc] at hcut
  exact Nat.not_lt.mp (of_decide_eq_false (hcut.symm.trans hless))

/-- Only a decreasing list has no pivot. -/
theorem descending_of_pivot?_eq_none (h : pivot? l = none) : l.Pairwise (· ≥ ·) := by
  have hnone := forall_of_find?_eq_none (Option.map_eq_none_iff.mp h)
  refine descending_of_lessAt [] fun j _ hj => ?_
  rw [List.nil_append] at hj ⊢
  exact hnone (j + 1) (Nat.le_add_left 1 j) (by omega)

/-- The list decreases behind its pivot, and it starts there with a larger index. -/
theorem pivot?_cut (h : pivot? l = some pivot) : ∃ before a b rest,
    l = before ++ a :: b :: rest ∧ before.length = pivot ∧ a < b ∧
      (b :: rest).Pairwise (· ≥ ·) := by
  obtain ⟨i, hi, rfl⟩ := Option.map_eq_some_iff.mp h
  obtain ⟨⟨hfirst, hlast⟩, hless, hafter⟩ := last_of_find?_eq_some hi
  obtain ⟨before, a, after, rfl, hlen⟩ := exists_cut (l := l) (i := i - 1) (by omega)
  cases after with
  | nil =>
    rw [length_cut, List.length_nil] at hlast
    omega
  | cons b rest =>
    refine ⟨before, a, b, rest, rfl, hlen, ?_, ?_⟩
    · have hcut := lessAt_cut before [] rest a b
      rw [List.nil_append, List.length_nil, Nat.add_zero, hlen, Nat.sub_add_cancel hfirst] at hcut
      exact of_decide_eq_true (hcut.symm.trans hless)
    · rw [List.append_cons] at hafter
      refine descending_of_lessAt (before ++ [a]) fun j hj hjlen => ?_
      rw [List.length_append, List.length_singleton] at hj
      exact hafter (j + 1) (by omega) (by omega)

/-- Behind the place that is found no index is larger than the pivot's. -/
theorem larger?_cut {place : Nat} (h : larger? (before ++ a :: after) before.length = some place) :
    ∃ front b back, after = front ++ b :: back ∧ place = before.length + 1 + front.length ∧
      a < b ∧ ∀ c ∈ back, c ≤ a := by
  obtain ⟨⟨hfirst, hlast⟩, hless, hafter⟩ := last_of_find?_eq_some h
  rw [length_cut] at hlast hafter
  obtain ⟨front, b, back, rfl, hfront⟩ :=
    exists_cut (l := after) (i := place - (before.length + 1)) (by omega)
  obtain rfl : place = before.length + 1 + front.length := by omega
  rw [lessAt_cut] at hless
  refine ⟨front, b, back, rfl, rfl, of_decide_eq_true hless, fun c hc => ?_⟩
  obtain ⟨between, back, rfl⟩ := List.append_of_mem hc
  have hcut := lessAt_cut before (front ++ b :: between) back a c
  rw [List.append_assoc, List.cons_append] at hcut
  have hnot := hafter (before.length + 1 + (front ++ b :: between).length)
    (by rw [length_cut]; omega) (by simp only [List.length_append, List.length_cons]; omega)
  exact Nat.not_lt.mp (of_decide_eq_false (hcut.symm.trans hnot))

/-- **Behind a pivot there is always a larger index**, so none has to stand in for it. -/
theorem exists_larger? (h : pivot? l = some pivot) : ∃ place, larger? l pivot = some place := by
  obtain ⟨before, a, b, rest, rfl, rfl, hab, -⟩ := pivot?_cut h
  refine Option.ne_none_iff_exists'.mp fun hnone => ?_
  have hnot := forall_of_find?_eq_none hnone (before.length + 1) (Nat.le_refl _) (by
    rw [length_cut, List.length_cons]
    omega)
  have hcut := lessAt_cut before [] rest a b
  exact of_decide_eq_false (hcut.symm.trans hnot) hab

end Pivot

/-! ## The next ordering -/

/-- The next ordering exchanges the pivot with the last larger index, and what follows increases
then. -/
theorem nextOrdering?_cut {l next : List Nat} (h : nextOrdering? l = some next) :
    ∃ before a front b back, l = before ++ a :: (front ++ b :: back) ∧
      next = before ++ b :: (front ++ a :: back).reverse ∧
      (front ++ b :: back).Pairwise (· ≥ ·) ∧ a < b ∧ ∀ c ∈ back, c ≤ a := by
  obtain ⟨pivot, hpivot, rfl⟩ := Option.map_eq_some_iff.mp h
  obtain ⟨place, hplace⟩ := exists_larger? hpivot
  obtain ⟨before, a, b, rest, rfl, rfl, -, hdesc⟩ := pivot?_cut hpivot
  obtain ⟨front, c, back, hcut, rfl, hac, hback⟩ := larger?_cut hplace
  rw [hcut] at hdesc hplace ⊢
  refine ⟨before, a, front, c, back, rfl, ?_, hdesc, hac, hback⟩
  rw [hplace, Option.getD_some, exchange_cut, reverseFrom_cut]

section Exchanged

variable {front back : List Nat} {a b c : Nat}

theorem perm_exchanged :
    (b :: (front ++ a :: back).reverse).Perm (a :: (front ++ b :: back)) :=
  calc List.Perm (b :: (front ++ a :: back).reverse) (b :: (front ++ a :: back)) :=
        (List.reverse_perm _).cons b
    List.Perm _ (b :: a :: (front ++ back)) := List.perm_middle.cons b
    List.Perm _ (a :: b :: (front ++ back)) := List.Perm.swap a b _
    List.Perm _ (a :: (front ++ b :: back)) := List.perm_middle.symm.cons a

variable (hdesc : (front ++ b :: back).Pairwise (· ≥ ·)) (hback : ∀ c ∈ back, c ≤ a)
include hdesc hback

/-- Of the indices larger than the pivot `a`, the last one is the least. -/
theorem le_of_larger (hc : c ∈ front ++ b :: back) (hac : a < c) : b ≤ c := by
  rcases List.mem_append.mp hc with hc | hc
  · exact (List.pairwise_append.mp hdesc).2.2 c hc b List.mem_cons_self
  · rcases List.mem_cons.mp hc with rfl | hc
    · exact Nat.le_refl _
    · exact absurd hac (Nat.not_lt.mpr (hback c hc))

/-- The pivot `a` keeps the order where it takes the place of `b`. -/
theorem ascending_exchanged (hab : a < b) : (front ++ a :: back).reverse.Pairwise (· ≤ ·) := by
  obtain ⟨hfront, hrest, hcross⟩ := List.pairwise_append.mp hdesc
  refine List.pairwise_reverse.mpr (List.pairwise_append.mpr ⟨hfront, ?_, fun d hd e he => ?_⟩)
  · exact List.pairwise_cons.mpr ⟨hback, (List.pairwise_cons.mp hrest).2⟩
  · have had : a ≤ d := hab.le.trans (hcross d hd b List.mem_cons_self)
    rcases List.mem_cons.mp he with rfl | he
    · exact had
    · exact (hback e he).trans had

end Exchanged

/-- **No ordering lies between an ordering and the next one.** -/
theorem nextOrdering?_eq_some {l next : List Nat} (h : nextOrdering? l = some next) :
    next.Perm l ∧ l < next ∧ ∀ m : List Nat, m.Perm l → l < m → ¬ m < next := by
  obtain ⟨before, a, front, b, back, rfl, rfl, hdesc, hab, hback⟩ := nextOrdering?_cut h
  refine ⟨perm_exchanged.append_left before, ?_, fun m hm hlm hmn => ?_⟩
  · exact List.append_left_lt (List.cons_lt_cons_iff.mpr (.inl hab))
  obtain ⟨rest, rfl, hlr, hrn⟩ := exists_append_of_between hlm hmn
  have hm := (List.perm_append_left_iff before).mp hm
  cases rest with
  | nil => exact List.not_lt_nil _ hlr
  | cons c rest =>
    rw [List.cons_lt_cons_iff] at hlr hrn
    rcases hlr with hac | ⟨rfl, hlr⟩
    · have hc : c ∈ front ++ b :: back :=
        (List.mem_cons.mp (hm.subset List.mem_cons_self)).resolve_left (Nat.ne_of_gt hac)
      rcases hrn with hcb | ⟨rfl, hrn⟩
      · exact Nat.not_lt.mpr (le_of_larger hdesc hback hc hac) hcb
      · have hperm := (hm.trans perm_exchanged.symm).cons_inv
        exact not_lt_of_ascending (ascending_exchanged hdesc hback hab) hperm hrn
    · exact not_lt_of_descending hdesc hm.cons_inv hlr

/-- Only a decreasing list has no next ordering. -/
theorem descending_of_nextOrdering?_eq_none {l : List Nat} (h : nextOrdering? l = none) :
    l.Pairwise (· ≥ ·) :=
  descending_of_pivot?_eq_none (Option.map_eq_none_iff.mp h)

theorem succession_nextOrdering? (n : Nat) :
    Succession (· < ·) (fun l => l.Perm (List.range n)) fun l => .ok (nextOrdering? l) where
  answers _ := ⟨_, rfl⟩
  valid_next hv h := (nextOrdering?_eq_some (Except.ok.inj h)).1.trans hv
  lt_next _ h := (nextOrdering?_eq_some (Except.ok.inj h)).2.1
  not_between hv h m hm := (nextOrdering?_eq_some (Except.ok.inj h)).2.2 m (hm.trans hv.symm)
  last hv h _ hm := not_lt_of_descending (descending_of_nextOrdering?_eq_none (Except.ok.inj h))
    (hm.trans hv.symm)

/-! ## The whole walk -/

theorem owes_orderingWalk (n : Nat) : (orderingWalk n).Owes (sortedOrderings n) :=
  owes_of_succession (succession_nextOrdering? n) (fun _ _ h => lt_asymm h)
    (pairwise_sortedOrderings n) (fun _ => mem_sortedOrderings) (List.Perm.refl _)
    fun _ hm => not_lt_of_ascending List.pairwise_le_range hm

/-- **The orderings are the sorted permutations of the indices.** -/
theorem toList_orderings (n : Nat) : (orderings n).toList = sortedOrderings n := by
  refine Walk.toList_items_of_owes (owes_orderingWalk n) ?_
  rw [length_sortedOrderings, orderingCount_eq_factorial]

/-- The decreasing ordering is the last. -/
theorem getLast?_sortedOrderings (n : Nat) :
    (sortedOrderings n).getLast? = some (List.range n).reverse := by
  obtain ⟨before, after, hcut⟩ :=
    List.append_of_mem (mem_sortedOrderings.mpr (List.reverse_perm (List.range n)))
  have hs := pairwise_sortedOrderings n
  rw [hcut] at hs ⊢
  cases after with
  | nil => exact List.getLast?_concat
  | cons m after =>
    have hlt := (List.pairwise_cons.mp (List.pairwise_append.mp hs).2.1).1 m List.mem_cons_self
    have hm : m.Perm (List.range n) := mem_sortedOrderings.mp (by rw [hcut]; simp)
    have hdesc : (List.range n).reverse.Pairwise (· ≥ ·) :=
      List.pairwise_reverse.mpr List.pairwise_le_range
    exact absurd hlt (not_lt_of_descending hdesc (hm.trans (List.reverse_perm _).symm))

/-- **The walk hands out every ordering once, in lexicographic order, and then nothing, for ever.**
There are `n!` of them, from the increasing one to the decreasing one; of no index there is one, the
empty one. Wherever an ordering has a pivot, a larger index is found behind it. -/
theorem walk_gives_all_orderings (n : Nat) : ∃ listed : List (List Nat),
    (∀ k, (orderingWalk n).answer k = .ok listed[k]?) ∧
    (∀ l, l ∈ listed ↔ l.Perm (List.range n)) ∧ listed.Pairwise (· < ·) ∧
    listed.length = n.factorial ∧ listed.head? = some (List.range n) ∧
    listed.getLast? = some (List.range n).reverse ∧
    ∀ l ∈ listed, ∀ pivot, pivot? l = some pivot → ∃ place, larger? l pivot = some place :=
  ⟨sortedOrderings n, Walk.answer_of_owes (owes_orderingWalk n), fun _ => mem_sortedOrderings,
    pairwise_sortedOrderings n, length_sortedOrderings n, Walk.head?_of_owes (owes_orderingWalk n),
    getLast?_sortedOrderings n, fun _ _ _ h => exists_larger? h⟩

/-- The second ordering of three indices has its pivot in front, and a larger index behind it. -/
theorem walk_gives_all_orderings_pivot : (orderingWalk 3).answer 1 = .ok (some [0, 2, 1]) ∧
    pivot? [0, 2, 1] = some 0 ∧ ∃ place, larger? [0, 2, 1] 0 = some place := by
  obtain ⟨listed, -, hmem, -, -, -, -, hlarger⟩ := walk_gives_all_orderings 3
  have hlisted : [0, 2, 1] ∈ listed := (hmem [0, 2, 1]).mpr (by decide)
  exact ⟨rfl, rfl, hlarger [0, 2, 1] hlisted 0 rfl⟩

example : (orderings 3).toList =
    [[0, 1, 2], [0, 2, 1], [1, 0, 2], [1, 2, 0], [2, 0, 1], [2, 1, 0]] := by decide

end ValueGrammar.Arrangement
