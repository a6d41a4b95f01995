import Mathlib.Algebra.Group.Nat.Defs
import Mathlib.Data.List.Sort
import Mathlib.Data.List.Sublists
import ValueGrammar.Proofs.Walking

/-!
# Selections come by size and then in lexicographic order

The walk through the selections is compared with the sorted list of all non-empty sets of indices.
The next selection of the same size cuts a list at the last index below its ceiling
(`raisable?_cut`); behind it every index is at its ceiling, and no set of that size is larger
(`not_lt_of_full`).

Headlines:
* **`nextSelection?_eq_some`**: no selection lies between a selection and the next one.
* **`ceiling_eq_ok`**: the ceilings of a selection are there, as it has at most `n` indices.
* **`toList_selections`**: the selections are the sorted non-empty sublists of the indices.
* **`walk_gives_all_selections`**: what the walk hands out, and that it then stays at its end.
-/

namespace ValueGrammar.Arrangement

/-! ## All selections, sorted -/

/-- Shorter lists come before longer ones, lists of one length in lexicographic order. -/
def ComesBefore (s t : List Nat) : Prop :=
  s.length < t.length ∨ s.length = t.length ∧ s < t

/-- A set of indices below `n`, as an increasing list. -/
structure IndexSet (n : Nat) (s : List Nat) : Prop where
  increasing : s.Pairwise (· < ·)
  lt_of_mem : ∀ i ∈ s, i < n

/-- The selections from `0, …, n - 1`, sorted by length and then lexicographically. -/
def sortedSelections (n : Nat) : List (List Nat) :=
  ((List.range n).sublists.filter fun s => decide (s ≠ [])).mergeSort fun s t =>
    decide (s.length < t.length ∨ s.length = t.length ∧ s ≤ t)

/-- Sets of indices are the sublists of all indices. -/
theorem sublist_range_iff {n : Nat} {s : List Nat} :
    s.Sublist (List.range n) ↔ IndexSet n s := by
  constructor
  · intro h
    exact ⟨List.pairwise_lt_range.sublist h, fun i hi => List.mem_range.mp (h.subset hi)⟩
  · rintro ⟨hs, hn⟩
    have hsub : s.Subperm (List.range n) :=
      List.subperm_of_subset (hs.imp Nat.ne_of_lt) fun i hi => List.mem_range.mpr (hn i hi)
    exact List.sublist_of_subperm_of_pairwise hsub hs List.pairwise_lt_range

theorem mem_sortedSelections {n : Nat} {s : List Nat} :
    s ∈ sortedSelections n ↔ s ≠ [] ∧ IndexSet n s := by
  rw [sortedSelections, List.mem_mergeSort, List.mem_filter, List.mem_sublists, sublist_range_iff,
    decide_eq_true_eq, and_comm]

theorem comesBefore_asymm (s t : List Nat) (h : ComesBefore s t) : ¬ ComesBefore t s := by
  rcases h with h | ⟨h, hlt⟩
  · rintro (h' | ⟨h', -⟩) <;> omega
  · rintro (h' | ⟨-, hlt'⟩)
    · omega
    · exact lt_asymm hlt hlt'

theorem pairwise_sortedSelections (n : Nat) : (sortedSelections n).Pairwise ComesBefore := by
  have hle : (sortedSelections n).Pairwise fun s t =>
      s.length < t.length ∨ s.length = t.length ∧ s ≤ t := by
    refine (List.pairwise_mergeSort (fun a b c => ?_) (fun a b => ?_) _).imp of_decide_eq_true
    · simp only [decide_eq_true_eq]
      rintro (h | ⟨h, hab⟩) (h' | ⟨h', hbc⟩)
      · exact Or.inl (h.trans h')
      · exact Or.inl (h' ▸ h)
      · exact Or.inl (h ▸ h')
      · exact Or.inr ⟨h.trans h', hab.trans hbc⟩
    · simp only [Bool.or_eq_true, decide_eq_true_eq]
      rcases lt_trichotomy a.length b.length with h | h | h
      · exact Or.inl (Or.inl h)
      · rcases le_total a b with hab | hab
        · exact Or.inl (Or.inr ⟨h, hab⟩)
        · exact Or.inr (Or.inr ⟨h.symm, hab⟩)
      · exact Or.inr (Or.inl h)
  have hne : (sortedSelections n).Nodup :=
    (List.mergeSort_perm _ _).nodup_iff.mpr
      ((List.nodup_sublists.mpr List.nodup_range).filter _)
  refine (hle.and hne).imp ?_
  rintro s t ⟨h | ⟨h, hst⟩, hn⟩
  · exact Or.inl h
  · exact Or.inr ⟨h, lt_of_le_of_ne hst hn⟩

/-! ### Sets of one size -/

namespace IndexSet

variable {n a : Nat} {s t : List Nat}

theorem head_lt (h : IndexSet n (a :: s)) : ∀ i ∈ s, a < i :=
  (List.pairwise_cons.mp h.increasing).1

theorem tail (h : IndexSet n (a :: s)) : IndexSet n s :=
  ⟨(List.pairwise_cons.mp h.increasing).2, fun i hi => h.lt_of_mem i (List.mem_cons_of_mem a hi)⟩

theorem of_append (h : IndexSet n (s ++ t)) : IndexSet n t :=
  ⟨(List.pairwise_append.mp h.increasing).2.1,
    fun i hi => h.lt_of_mem i (List.mem_append_right s hi)⟩

/-- There is room for an increasing list behind its first index. -/
theorem head_add_length_lt : ∀ {s : List Nat} {a : Nat}, IndexSet n (a :: s) → a + s.length < n
  | [], a, h => h.lt_of_mem a List.mem_cons_self
  | b :: s, a, h => by
    have h1 := h.head_lt b List.mem_cons_self
    have h2 := h.tail.head_add_length_lt
    rw [List.length_cons]
    omega

/-- Of the sets that start at or above an index, the one without gaps comes first. -/
theorem not_lt_range' : ∀ {s : List Nat} {a : Nat}, IndexSet n s → (∀ i ∈ s, a ≤ i) →
    ¬ s < List.range' a s.length
  | [], _, _, _ => List.not_lt_nil _
  | b :: s, a, h, ha => by
    have hab := ha b List.mem_cons_self
    rw [List.length_cons, List.range'_succ, List.cons_lt_cons_iff]
    rintro (hlt | ⟨rfl, hlt⟩)
    · omega
    · exact not_lt_range' h.tail (fun i hi => h.head_lt i hi) hlt

theorem range' {m : Nat} (h : a + m ≤ n) : IndexSet n (List.range' a m) := by
  refine ⟨List.pairwise_lt_range', fun i hi => ?_⟩
  have := List.mem_range'_1.mp hi
  omega

/-- A set stays one if an index is raised and the others follow it closely. -/
theorem raised (h : IndexSet n (s ++ a :: t)) (ha : a + t.length + 1 < n) :
    IndexSet n (s ++ List.range' (a + 1) (t.length + 1)) := by
  have hrange : IndexSet n (List.range' (a + 1) (t.length + 1)) := IndexSet.range' (by omega)
  obtain ⟨hs, -, hcross⟩ := List.pairwise_append.mp h.increasing
  constructor
  · refine List.pairwise_append.mpr ⟨hs, hrange.increasing, fun i hi j hj => ?_⟩
    have hia := hcross i hi a List.mem_cons_self
    have haj := (List.mem_range'_1.mp hj).1
    omega
  · intro i hi
    rcases List.mem_append.mp hi with hi | hi
    · exact h.lt_of_mem i (List.mem_append_left _ hi)
    · exact hrange.lt_of_mem i hi

end IndexSet

/-- Every index is at its ceiling. -/
def Full (n : Nat) (s : List Nat) : Prop :=
  ∀ front b back, s = front ++ b :: back → n ≤ b + back.length + 1

/-- No set of the same size is larger than one whose indices are at their ceilings. -/
theorem not_lt_of_full {n : Nat} : ∀ {s t : List Nat}, Full n s → IndexSet n t →
    t.length = s.length → ¬ s < t
  | [], t, _, _, hlen => by
    rw [List.eq_nil_of_length_eq_zero hlen]
    exact List.not_lt_nil []
  | a :: s, [], _, _, _ => List.not_lt_nil _
  | a :: s, c :: t, hfull, ht, hlen => by
    have hc := ht.head_add_length_lt
    have ha := hfull [] a s rfl
    rw [List.length_cons, List.length_cons, Nat.add_right_cancel_iff] at hlen
    have htail : Full n s := fun front b back hcut => hfull (a :: front) b back (by rw [hcut]; rfl)
    rw [List.cons_lt_cons_iff]
    rintro (hac | ⟨-, hlt⟩)
    · omega
    · exact not_lt_of_full htail ht.tail hlen hlt

/-! ## The place that is raised -/

section Raising

variable {n size place a : Nat} {s before after : List Nat}

/-- A selection has at most `n` indices, so that there is a difference. -/
theorem ceiling_eq_ok (h : size ≤ n) : ceiling n size place = .ok (n - size + place) := by
  rw [ceiling, minus_eq_ok.mpr ⟨h, rfl⟩]
  rfl

theorem belowCeiling_eq_ok (h : s.length ≤ n) : belowCeiling n s place =
    .ok (s[place]?.any fun c => decide (c < n - s.length + place)) := by
  rw [belowCeiling, ceiling_eq_ok h]
  rfl

theorem raisable?_eq_ok (h : s.length ≤ n) : raisable? n s =
    .ok ((List.range' 0 s.length).reverse.find? fun place =>
      s[place]?.any fun c => decide (c < n - s.length + place)) := by
  have hbelow : belowCeiling n s = fun place =>
      pure (s[place]?.any fun c => decide (c < n - s.length + place)) :=
    funext fun _ => belowCeiling_eq_ok h
  rw [raisable?, hbelow, List.range_eq_range']
  exact List.findM?_pure _ _

/-- An index is below its ceiling if those behind it leave it room. -/
theorem below_cut (h : (before ++ a :: after).length ≤ n) :
    ((before ++ a :: after)[before.length]?.any fun c =>
      decide (c < n - (before ++ a :: after).length + before.length)) =
        decide (a + after.length + 1 < n) := by
  have ha : (before ++ a :: after)[before.length]? = some a := by simp
  rw [length_cut] at h
  rw [ha, Option.any_some, length_cut, decide_eq_decide]
  omega

/-- The place is the last one whose index can be raised: behind it all are at their ceilings. -/
theorem raisable?_cut (hlen : s.length ≤ n) (h : raisable? n s = .ok (some place)) :
    ∃ before a after, s = before ++ a :: after ∧ before.length = place ∧
      a + after.length + 1 < n ∧ Full n after := by
  rw [raisable?_eq_ok hlen] at h
  obtain ⟨⟨-, hlast⟩, hbelow, hbehind⟩ := last_of_find?_eq_some (Except.ok.inj h)
  rw [Nat.zero_add] at hlast hbehind
  obtain ⟨before, a, after, rfl, rfl⟩ := exists_cut hlast
  refine ⟨before, a, after, rfl, rfl, ?_, ?_⟩
  · rw [below_cut hlen] at hbelow
    exact of_decide_eq_true hbelow
  · rintro front b back rfl
    rw [List.append_cons, ← List.append_assoc] at hlen hbehind
    have hnot := hbehind (before ++ [a] ++ front).length (by simp) (by simp)
    rw [below_cut hlen] at hnot
    exact Nat.le_of_not_lt (of_decide_eq_false hnot)

theorem full_of_raisable?_eq_none (hlen : s.length ≤ n) (h : raisable? n s = .ok none) :
    Full n s := by
  rw [raisable?_eq_ok hlen] at h
  rintro front b back rfl
  have hnot := forall_of_find?_eq_none (Except.ok.inj h) front.length (Nat.zero_le _) (by simp)
  rw [below_cut hlen] at hnot
  exact Nat.le_of_not_lt (of_decide_eq_false hnot)

/-! ## Raising -/

/-- Each index that follows is by one larger than the one before it. -/
theorem foldl_follow : ∀ (after before : List Nat) (a : Nat),
    (List.range' (before.length + 1) after.length).foldl follow (before ++ a :: after) =
      before ++ List.range' a (after.length + 1)
  | [], before, a => rfl
  | c :: after, before, a => by
    have hfollow : follow (before ++ a :: c :: after) (before.length + 1) =
        before ++ [a] ++ (a + 1) :: after := by simp [follow]
    have hrest := foldl_follow after (before ++ [a]) (a + 1)
    rw [List.length_append, List.length_singleton] at hrest
    rw [List.length_cons, List.range'_succ, List.foldl_cons, hfollow, hrest, List.append_assoc,
      List.singleton_append, ← List.range'_succ]

theorem raise_cut : raise (before ++ a :: after) before.length =
    before ++ List.range' (a + 1) (after.length + 1) := by
  have hmodify : (before ++ a :: after).modify before.length (· + 1) =
      before ++ (a + 1) :: after := by
    simp [List.modify_eq_take_drop]
  rw [raise, hmodify, length_cut, Nat.add_sub_cancel_left, foldl_follow]

end Raising

/-! ## The next selection -/

section Next

variable {n : Nat} {s next : List Nat}

theorem length_le_of_indexSet (h : IndexSet n s) : s.length ≤ n := by
  simpa using (sublist_range_iff.mpr h).length_le

/-- The next selection raises an index, or else all are at their ceilings and it is the first of
the next size, if there are enough indices. -/
theorem nextSelection?_cut (hs : IndexSet n s) :
    (∃ before a after, s = before ++ a :: after ∧ a + after.length + 1 < n ∧ Full n after ∧
      nextSelection? n s = .ok (some (before ++ List.range' (a + 1) (after.length + 1)))) ∨
    Full n s ∧ nextSelection? n s =
      .ok (if s.length < n then some (List.range' 0 (s.length + 1)) else none) := by
  have hlen := length_le_of_indexSet hs
  have hraise := raisable?_eq_ok hlen
  cases hplace : (List.range' 0 s.length).reverse.find? _ with
  | some place =>
    rw [hplace] at hraise
    obtain ⟨before, a, after, rfl, rfl, hroom, hfull⟩ := raisable?_cut hlen hraise
    refine .inl ⟨before, a, after, rfl, hroom, hfull, ?_⟩
    rw [nextSelection?, hraise, ← raise_cut]
    rfl
  | none =>
    rw [hplace] at hraise
    refine .inr ⟨full_of_raisable?_eq_none hlen hraise, ?_⟩
    rw [nextSelection?, hraise, ← List.range_eq_range']
    rfl

theorem exists_nextSelection? (hs : IndexSet n s) : ∃ next?, nextSelection? n s = .ok next? := by
  rcases nextSelection?_cut hs with ⟨_, _, _, -, -, -, h⟩ | ⟨-, h⟩ <;> exact ⟨_, h⟩

section Raised

variable {before after t : List Nat} {a : Nat}

/-- A raised selection is the next one of its size. -/
theorem not_between_of_raised (hfull : Full n after) (ht : IndexSet n t)
    (hlen : t.length = (before ++ a :: after).length) (hlt : before ++ a :: after < t) :
    ¬ t < before ++ List.range' (a + 1) (after.length + 1) := by
  intro hgt
  obtain ⟨rest, rfl, hlr, hrn⟩ := exists_append_of_between hlt hgt
  have hrest := ht.of_append
  cases rest with
  | nil => exact List.not_lt_nil _ hlr
  | cons c rest =>
    rw [length_cut, length_cut, Nat.add_left_cancel_iff] at hlen
    rcases List.cons_lt_cons_iff.mp hlr with hac | ⟨rfl, hafter⟩
    · -- what follows the raised place is the first set above the old index
      have habove : ∀ i ∈ c :: rest, a + 1 ≤ i :=
        List.forall_mem_cons.mpr ⟨hac, fun i hi => hac.trans (hrest.head_lt i hi)⟩
      rw [← hlen] at hrn
      exact hrest.not_lt_range' habove hrn
    · exact not_lt_of_full hfull hrest.tail hlen hafter

end Raised

/-- **No selection lies between a selection and the next one.** -/
theorem nextSelection?_eq_some (hs : IndexSet n s) (h : nextSelection? n s = .ok (some next)) :
    IndexSet n next ∧ ComesBefore s next ∧
      ∀ t, IndexSet n t → ComesBefore s t → ¬ ComesBefore t next := by
  rcases nextSelection?_cut hs with ⟨before, a, after, rfl, hroom, hfull, hn⟩ | ⟨hfull, hn⟩
  · cases hn.symm.trans h
    have hlen : (before ++ List.range' (a + 1) (after.length + 1)).length =
        (before ++ a :: after).length := by simp
    refine ⟨hs.raised hroom, .inr ⟨hlen.symm, List.append_left_lt ?_⟩, ?_⟩
    · rw [List.range'_succ]
      exact List.cons_lt_cons_iff.mpr (.inl (Nat.lt_succ_self a))
    · rintro t ht (hst | ⟨hst, hlt⟩) (htn | ⟨htn, hgt⟩)
      · omega
      · omega
      · omega
      · exact not_between_of_raised hfull ht hst.symm hlt hgt
  · have h := Except.ok.inj (hn.symm.trans h)
    split at h
    · next hroom =>
      cases h
      refine ⟨IndexSet.range' (by omega), .inl (by simp), ?_⟩
      rintro t ht (hst | ⟨hst, hlt⟩) htn
      · rcases htn with htn | ⟨htn, hgt⟩
        · rw [List.length_range'] at htn
          omega
        · rw [List.length_range'] at htn
          rw [← htn] at hgt
          exact ht.not_lt_range' (fun i _ => Nat.zero_le i) hgt
      · exact not_lt_of_full hfull ht hst.symm hlt
    · cases h

/-- Nothing comes after the set of all indices. -/
theorem nextSelection?_eq_none (hs : IndexSet n s) (h : nextSelection? n s = .ok none) :
    ∀ t, IndexSet n t → ¬ ComesBefore s t := by
  rcases nextSelection?_cut hs with ⟨_, _, _, -, -, -, hn⟩ | ⟨hfull, hn⟩
  · cases hn.symm.trans h
  · have h := Except.ok.inj (hn.symm.trans h)
    split at h
    · cases h
    · rintro t ht (hst | ⟨hst, hlt⟩)
      · have := length_le_of_indexSet ht
        omega
      · exact not_lt_of_full hfull ht hst.symm hlt

end Next

theorem succession_nextSelection? (n : Nat) :
    Succession ComesBefore (fun s => s ≠ [] ∧ IndexSet n s) (nextSelection? n) where
  answers hv := exists_nextSelection? hv.2
  valid_next hv h := by
    obtain ⟨hset, hlt, -⟩ := nextSelection?_eq_some hv.2 h
    refine ⟨?_, hset⟩
    rintro rfl
    rcases hlt with hlt | ⟨hlen, -⟩
    · exact Nat.not_lt_zero _ hlt
    · exact hv.1 (List.eq_nil_of_length_eq_zero hlen)
  lt_next hv h := (nextSelection?_eq_some hv.2 h).2.1
  not_between hv h t ht := (nextSelection?_eq_some hv.2 h).2.2 t ht.2
  last hv h t ht := nextSelection?_eq_none hv.2 h t ht.2

/-! ## The whole walk -/

/-- Of the `2 ^ n` sets one is empty. -/
theorem length_sortedSelections (n : Nat) : (sortedSelections n).length = 2 ^ n - 1 := by
  have hnodup : (List.range n).sublists.Nodup := List.nodup_sublists.mpr List.nodup_range
  have hfilter : ((List.range n).sublists.filter fun s => decide (s ≠ [])) =
      (List.range n).sublists.erase [] := by
    rw [hnodup.erase_eq_filter]
    exact List.filter_congr fun s _ => by cases s <;> rfl
  rw [sortedSelections, List.length_mergeSort, hfilter,
    List.length_erase_of_mem (List.mem_sublists.mpr (List.nil_sublist _)), List.length_sublists,
    List.length_range]

theorem owes_selectionWalk : ∀ n : Nat, (selectionWalk n).Owes (sortedSelections n)
  | 0 => by
    rw [List.eq_nil_of_length_eq_zero (length_sortedSelections 0)]
    rfl
  | n + 1 => by
    have hfirst : IndexSet (n + 1) [0] := IndexSet.range' (a := 0) (m := 1) (by omega)
    refine owes_of_succession (succession_nextSelection? (n + 1)) comesBefore_asymm
      (pairwise_sortedSelections (n + 1)) (fun _ => mem_sortedSelections)
      ⟨List.cons_ne_nil 0 [], hfirst⟩ ?_
    rintro s ⟨hne, hs⟩ (hlt | ⟨hlen, hlt⟩)
    · exact hne (List.eq_nil_of_length_eq_zero (Nat.lt_one_iff.mp hlt))
    · rw [show [0] = List.range' 0 s.length by rw [hlen]; rfl] at hlt
      exact hs.not_lt_range' (fun i _ => Nat.zero_le i) hlt

/-- **The selections are the sorted non-empty sublists of the indices.** -/
theorem toList_selections (n : Nat) : (selections n).toList = sortedSelections n := by
  refine Walk.toList_items_of_owes (owes_selectionWalk n) ?_
  rw [length_sortedSelections]
  exact Nat.sub_le _ _

/-- **The walk hands out every non-empty set of indices once, by size and then in lexicographic
order, and then nothing, for ever.** There are `2 ^ n - 1` of them, and all their ceilings are
there: no larger number is ever taken from a smaller one. -/
theorem walk_gives_all_selections (n : Nat) : ∃ listed : List (List Nat),
    (∀ k, (selectionWalk n).answer k = .ok listed[k]?) ∧
    (∀ s, s ∈ listed ↔ s ≠ [] ∧ s.Pairwise (· < ·) ∧ ∀ i ∈ s, i < n) ∧
    listed.Pairwise ComesBefore ∧ listed.length = 2 ^ n - 1 ∧
    ∀ s ∈ listed, ∀ place, ceiling n s.length place = .ok (n - s.length + place) := by
  refine ⟨sortedSelections n, Walk.answer_of_owes (owes_selectionWalk n), fun s => ?_,
    pairwise_sortedSelections n, length_sortedSelections n, fun s hs place => ?_⟩
  · rw [mem_sortedSelections]
    exact and_congr_right' ⟨fun h => ⟨h.increasing, h.lt_of_mem⟩, fun h => ⟨h.1, h.2⟩⟩
  · exact ceiling_eq_ok (length_le_of_indexSet (mem_sortedSelections.mp hs).2)

/-- Of three indices the fifth selection has two, and the last one may stand in second place. -/
theorem walk_gives_all_selections_pair : (selectionWalk 3).answer 4 = .ok (some [0, 2]) ∧
    ceiling 3 [0, 2].length 1 = .ok 2 := by
  obtain ⟨listed, -, hmem, -, -, hceiling⟩ := walk_gives_all_selections 3
  have hlisted : [0, 2] ∈ listed := (hmem [0, 2]).mpr (by decide)
  exact ⟨rfl, hceiling [0, 2] hlisted 1⟩

example : (selections 3).toList = [[0], [1], [2], [0, 1], [0, 2], [1, 2], [0, 1, 2]] := by decide

end ValueGrammar.Arrangement
