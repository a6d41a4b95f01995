/-!
# Sets of code points

A set of code points is written as inclusive ranges in increasing order.

Headlines:
* **`inRanges_iff`**: on increasing ranges, membership means to lie in one of them.
-/

namespace ValueGrammar.Text

/-- Whether a number lies in one of some increasing ranges. -/
def inRanges (n : Nat) : List (Nat × Nat) → Bool
  | [] => false
  | (low, high) :: rest => if n < low then false else if n ≤ high then true else inRanges n rest

/-- Ranges in increasing order. -/
def Increasing (ranges : List (Nat × Nat)) : Prop := ranges.Pairwise fun r s => r.1 ≤ s.1

/-- On increasing ranges, membership means to lie in one of them. -/
theorem inRanges_iff {n : Nat} : ∀ {ranges : List (Nat × Nat)}, Increasing ranges →
    (inRanges n ranges = true ↔ ∃ r ∈ ranges, r.1 ≤ n ∧ n ≤ r.2)
  | [], _ => by simp [inRanges]
  | (low, high) :: rest, h => by
    obtain ⟨hlow, hrest⟩ := List.pairwise_cons.1 h
    unfold inRanges
    split
    · next hn =>
      refine iff_of_false (by simp) ?_
      rintro ⟨r, hr, h1, _⟩
      rcases List.mem_cons.1 hr with rfl | hr
      · exact Nat.not_lt.2 h1 hn
      · exact Nat.not_lt.2 (Nat.le_trans (hlow r hr) h1) hn
    · next hn =>
      split
      · next hh =>
        exact iff_of_true rfl ⟨_, List.mem_cons_self, Nat.not_lt.1 hn, hh⟩
      · next hh =>
        rw [inRanges_iff hrest]
        constructor
        · rintro ⟨r, hr, hb⟩
          exact ⟨r, List.mem_cons_of_mem _ hr, hb⟩
        · rintro ⟨r, hr, hb⟩
          rcases List.mem_cons.1 hr with rfl | hr
          · exact absurd hb.2 hh
          · exact ⟨r, hr, hb⟩

end ValueGrammar.Text
