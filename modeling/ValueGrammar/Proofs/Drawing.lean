import ValueGrammar.Listing
import ValueGrammar.Proofs.Congruence

/-!
# Limits on draws

A limit on draws cuts every repeated part of an expression, at any depth, to its first values.
Whatever is built from parts that begin alike begins alike itself: a list of choices asks for a
further value of a part only when all the parts behind it have been gone through, and those have a
value each, or there are no choices at all.

Headlines:
* **`BeginAlike.flatMap_left`**: lists that begin alike are replaced by non-empty ones alike.
* **`beginAlike_choices`**: the choices from lists that begin alike begin alike.
* **`respected_beginAlike`**: beginning alike passes from the parts of an enumeration to the whole.
* **`take_of_draws`**: up to the limit on draws, the values of an expression are those without it.
-/

namespace ValueGrammar

open Arrangement Generator

variable {α β : Type} {m n : Nat}

/-! ## Lists that begin alike -/

/-- **Two lists begin alike**: their first `n` elements are the same, and if one of them has fewer,
so has the other. -/
def BeginAlike (n : Nat) (xs ys : List α) : Prop := xs.take n = ys.take n

theorem BeginAlike.refl (n : Nat) (xs : List α) : BeginAlike n xs xs := rfl

theorem BeginAlike.trans {xs ys zs : List α} (h : BeginAlike n xs ys) (h' : BeginAlike n ys zs) :
    BeginAlike n xs zs :=
  Eq.trans h h'

theorem BeginAlike.mono {xs ys : List α} (h : BeginAlike n xs ys) (hm : m ≤ n) :
    BeginAlike m xs ys := by
  have htake := congrArg (List.take m) h
  rwa [List.take_take, List.take_take, Nat.min_eq_left hm] at htake

/-- The first elements of a list begin like the list. -/
theorem beginAlike_take (h : n ≤ m) (xs : List α) : BeginAlike n (xs.take m) xs := by
  unfold BeginAlike
  rw [List.take_take, Nat.min_eq_left h]

/-- Lists that begin alike are the same, or both are long enough. -/
theorem BeginAlike.eq_or_le {xs ys : List α} (h : BeginAlike n xs ys) :
    xs = ys ∨ n ≤ xs.length ∧ n ≤ ys.length := by
  have hlen := congrArg List.length h
  rw [List.length_take, List.length_take] at hlen
  by_cases hx : n ≤ xs.length
  · exact .inr ⟨hx, by omega⟩
  · refine .inl ?_
    unfold BeginAlike at h
    rwa [List.take_of_length_le (by omega), List.take_of_length_le (by omega)] at h

theorem BeginAlike.eq_of_length_lt {xs ys : List α} (h : BeginAlike n xs ys)
    (hlt : xs.length < n ∨ ys.length < n) : xs = ys := by
  rcases h.eq_or_le with heq | ⟨hx, hy⟩
  · exact heq
  · omega

theorem BeginAlike.map {xs ys : List α} (f : α → β) (h : BeginAlike n xs ys) :
    BeginAlike n (xs.map f) (ys.map f) := by
  unfold BeginAlike
  rw [← List.map_take, ← List.map_take, h]

theorem BeginAlike.append {xs xs' ys ys' : List α} (h : BeginAlike n xs xs')
    (h' : BeginAlike n ys ys') : BeginAlike n (xs ++ ys) (xs' ++ ys') := by
  rcases h.eq_or_le with rfl | ⟨hx, hx'⟩
  · have hrest : BeginAlike (n - xs.length) ys ys' := h'.mono (Nat.sub_le n _)
    unfold BeginAlike
    rw [List.take_append, List.take_append, hrest]
  · unfold BeginAlike
    rw [List.take_append_of_le_length hx, List.take_append_of_le_length hx', h]

theorem beginAlike_flatMap {as : List α} {f g : α → List β}
    (h : ∀ a ∈ as, BeginAlike n (f a) (g a)) : BeginAlike n (as.flatMap f) (as.flatMap g) := by
  refine flatten_of_append (.refl n _) BeginAlike.append ?_
  rw [List.forall₂_map_left_iff, List.forall₂_map_right_iff, List.forall₂_same]
  exact h

theorem length_le_length_flatMap {f : α → List β} (hf : ∀ a, f a ≠ []) (xs : List α) :
    xs.length ≤ (xs.flatMap f).length := by
  induction xs with
  | nil => exact Nat.zero_le _
  | cons x xs ih =>
    have hx := List.length_pos_of_ne_nil (hf x)
    rw [List.flatMap_cons, List.length_append, List.length_cons]
    omega

/-- **Lists that begin alike are replaced alike**, if every element is replaced by something: then
the first `n` elements are enough for `n` elements of the outcome. -/
theorem BeginAlike.flatMap_left {xs ys : List α} {f : α → List β} (h : BeginAlike n xs ys)
    (hf : ∀ a, f a ≠ []) : BeginAlike n (xs.flatMap f) (ys.flatMap f) := by
  have enough {zs : List α} (hz : n ≤ zs.length) :
      BeginAlike n (zs.flatMap f) ((zs.take n).flatMap f) := by
    have hlen := length_le_length_flatMap hf (zs.take n)
    rw [List.length_take_of_le hz] at hlen
    unfold BeginAlike
    conv => lhs; rw [← List.take_append_drop n zs, List.flatMap_append]
    exact List.take_append_of_le_length hlen
  rcases h.eq_or_le with rfl | ⟨hx, hy⟩
  · exact .refl n _
  · have hmid : BeginAlike n ((xs.take n).flatMap f) (ys.flatMap f) := by
      rw [h]
      exact (enough hy).symm
    exact (enough hx).trans hmid

/-! ## Choices -/

/-- The choices from lists that begin alike begin alike. -/
theorem beginAlike_choices {ps qs : List (List α)} (h : List.Forall₂ (BeginAlike n) ps qs) :
    BeginAlike n (Cursor.choices ps) (Cursor.choices qs) := by
  induction h with
  | nil => exact .refl n _
  | @cons p q ps qs hp _ ih =>
    have hrest : BeginAlike n (p.flatMap fun a => (Cursor.choices ps).map (a :: ·))
        (p.flatMap fun a => (Cursor.choices qs).map (a :: ·)) :=
      beginAlike_flatMap fun a _ => ih.map (a :: ·)
    rw [Cursor.choices, Cursor.choices]
    refine hrest.trans ?_
    -- without a choice from the later lists there is none at all, however many the first one has
    by_cases hnil : Cursor.choices qs = []
    · have none (zs : List α) :
          (zs.flatMap fun a => ([] : List (List α)).map (a :: ·)) = [] :=
        List.flatMap_eq_nil_iff.mpr fun _ _ => rfl
      rw [hnil, none, none]
      exact .refl n _
    · exact hp.flatMap_left fun a => by simpa using hnil

theorem beginAlike_sequences {ps qs : List (List Sample)}
    (h : List.Forall₂ (BeginAlike n) ps qs) : BeginAlike n (sequences ps) (sequences qs) :=
  (beginAlike_choices h).map Sample.seq

/-- Enumerations respect beginning alike. -/
theorem respected_beginAlike (n : Nat) : Respected (BeginAlike n) where
  refl := BeginAlike.refl n
  append := BeginAlike.append
  sequences := beginAlike_sequences

/-! ## Limits -/

/-- Drawing no more values than are asked for leaves the first ones as they are. -/
theorem beginAlike_bound {g h : Generator} {draws : UInt64} (repetitions : UInt64)
    (hgh : BeginAlike n g.enumeration h.enumeration)
    (hn : n ≤ draws.toNat) : BeginAlike n ((Limits.mk repetitions (some draws)).bound g).enumeration
      ((Limits.mk repetitions none).bound h).enumeration := by
  rw [Limits.bound, Limits.bound, enumeration]
  exact (beginAlike_take hn _).trans hgh

/-- A limit on draws changes none of the first values of an expression, as many as the limit. -/
theorem beginAlike_draws (repetitions draws : UInt64) (e : Expr) : BeginAlike draws.toNat
    (e.generator ⟨repetitions, some draws⟩).enumeration
    (e.generator ⟨repetitions, none⟩).enumeration := by
  have hR := respected_beginAlike draws.toNat
  refine hR.expr ⟨repetitions, some draws⟩ ⟨repetitions, none⟩ (fun m hgh => ?_) e
  exact hR.multiply (fun h => beginAlike_bound repetitions h (Nat.le_refl _)) hgh m

/-- **A limit on draws never changes the first values.** As many values as the limit, or fewer, are
the same with it and without it, in the same order; if there are fewer than are asked for on either
side, all the values are the same. So a listing of that many values has the same texts. -/
theorem take_of_draws (e : Expr) (repetitions draws : UInt64) (n : Nat) (hn : n ≤ draws.toNat) :
    (e.compile ⟨repetitions, some draws⟩).cursor.take n =
        (e.compile ⟨repetitions, none⟩).cursor.take n ∧
      ((e.compile ⟨repetitions, some draws⟩).cursor.toList.length < n ∨
        (e.compile ⟨repetitions, none⟩).cursor.toList.length < n →
          (e.compile ⟨repetitions, some draws⟩).cursor.toList =
            (e.compile ⟨repetitions, none⟩).cursor.toList) ∧
      ∀ distinct, (Listing.mk (some n) distinct).texts (e.compile ⟨repetitions, some draws⟩) =
        (Listing.mk (some n) distinct).texts (e.compile ⟨repetitions, none⟩) := by
  have halike : BeginAlike n (e.compile ⟨repetitions, some draws⟩).cursor.toList
      (e.compile ⟨repetitions, none⟩).cursor.toList := by
    rw [toList_cursor_compile, toList_cursor_compile]
    exact (beginAlike_draws repetitions draws e).mono hn
  have htake : (e.compile ⟨repetitions, some draws⟩).cursor.take n =
      (e.compile ⟨repetitions, none⟩).cursor.take n := by
    rw [Cursor.take_eq_remaining, Cursor.take_eq_remaining, ← Cursor.toList_eq_remaining,
      ← Cursor.toList_eq_remaining]
    exact halike
  refine ⟨htake, halike.eq_of_length_lt, fun distinct => ?_⟩
  simp only [Listing.texts, Listing.samples, htake]

/-- With two draws from three options, the first two values of a repetition are the same as without
a limit, also as texts. The third is not: the third option is never drawn. -/
theorem take_of_draws_options :
    let options : Expr := .multiplied (.group (.combined .oneOf
      [.leaf (.identifier "a"), .leaf (.identifier "b"), .leaf (.identifier "c")])) .oneOrMore
    2 ≤ (2 : UInt64).toNat ∧
    (options.compile ⟨2, some 2⟩).cursor.take 2 = (options.compile ⟨2, none⟩).cursor.take 2 ∧
    (∀ distinct, (Listing.mk (some 2) distinct).texts (options.compile ⟨2, some 2⟩) =
      (Listing.mk (some 2) distinct).texts (options.compile ⟨2, none⟩)) ∧
    ((options.compile ⟨2, some 2⟩).cursor.take 3).map Sample.render = ["a", "b", "a a"] ∧
    ((options.compile ⟨2, none⟩).cursor.take 3).map Sample.render = ["a", "b", "c"] := by
  intro options
  have h := take_of_draws options 2 2 2 (by decide)
  exact ⟨by decide, h.1, h.2.2, by decide +kernel, by decide +kernel⟩

end ValueGrammar
