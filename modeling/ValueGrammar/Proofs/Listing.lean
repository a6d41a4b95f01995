import Mathlib.Data.ENat.Lattice
import Mathlib.Data.List.Basic
import Mathlib.Data.List.TakeWhile
import ValueGrammar.Listing

/-!
# Limits and repeated texts

A listing cuts the enumeration first and then renders it; repeated texts are dropped last, by going
through the texts with the set of those seen before. What remains is said here by places: a text
stays if it does not occur at an earlier one. Whether it stays does not depend on what comes behind
it, so that a higher limit only adds texts at the end, with and without repeated ones.

Headlines:
* **`firstOccurrences_eq`**: going through the texts with a set drops those that occur earlier.
* **`pairwise_withoutRepeats`**, **`mem_withoutRepeats`**: what remains has every text once, in the
  order of the first occurrences.
* **`prefix_withoutRepeats`**: of the first texts, the first ones remain.
* **`rendered_render`**: a rendering is the fragments with spaces between, behind some blanks.
* **`texts_of_limits`**: listings of one enumeration under two limits.
-/

namespace ValueGrammar

/-! ## Dropping repeated texts -/

/-- The texts that do not occur earlier. -/
def withoutRepeats (ts : List String) : List String :=
  (ts.zipIdx.filter fun p => p.1 ∉ ts.take p.2).map Prod.fst

variable {ts us : List String}

/-- What stays is what stands at the place of its first occurrence. -/
theorem mem_filter_zipIdx {p : String × Nat} :
    p ∈ (ts.zipIdx.filter fun p => p.1 ∉ ts.take p.2) ↔ p.1 ∈ ts ∧ ts.idxOf p.1 = p.2 := by
  rw [List.mem_filter, List.mem_zipIdx_iff_getElem?, decide_eq_true_eq]
  constructor
  · rintro ⟨hp, hnot⟩
    have hmem : p.1 ∈ ts := List.mem_of_getElem? hp
    have htake : p.1 ∈ ts.take (p.2 + 1) :=
      List.mem_of_getElem? ((List.getElem?_take_of_lt (Nat.lt_succ_self _)).trans hp)
    rw [List.mem_take_iff_idxOf_lt hmem] at hnot htake
    exact ⟨hmem, by omega⟩
  · rintro ⟨hmem, hplace⟩
    rw [← hplace, List.mem_take_iff_idxOf_lt hmem]
    exact ⟨List.getElem?_idxOf hmem, Nat.lt_irrefl _⟩

/-- No text is lost. -/
theorem mem_withoutRepeats {t : String} : t ∈ withoutRepeats ts ↔ t ∈ ts := by
  rw [withoutRepeats, List.mem_map]
  constructor
  · rintro ⟨p, hp, rfl⟩
    exact (mem_filter_zipIdx.mp hp).1
  · intro ht
    exact ⟨(t, ts.idxOf t), mem_filter_zipIdx.mpr ⟨ht, rfl⟩, rfl⟩

/-- The texts stand in the order of their first occurrences. -/
theorem pairwise_withoutRepeats (ts : List String) :
    (withoutRepeats ts).Pairwise fun s t => ts.idxOf s < ts.idxOf t := by
  have hplaces : (ts.zipIdx.map Prod.snd).Pairwise (· < ·) := by
    rw [List.zipIdx_map_snd]
    exact List.pairwise_lt_range' 1
  rw [withoutRepeats, List.pairwise_map]
  refine ((List.pairwise_map.mp hplaces).filter _).imp_of_mem fun hp hq hlt => ?_
  rw [(mem_filter_zipIdx.mp hp).2, (mem_filter_zipIdx.mp hq).2]
  exact hlt

/-- No text is left twice. -/
theorem nodup_withoutRepeats (ts : List String) : (withoutRepeats ts).Nodup := by
  refine (pairwise_withoutRepeats ts).imp fun hlt => ?_
  rintro rfl
  exact Nat.lt_irrefl _ hlt

/-- Whether a text stays does not depend on what comes behind it. -/
theorem prefix_withoutRepeats (h : ts <+: us) : withoutRepeats ts <+: withoutRepeats us := by
  obtain ⟨rest, rfl⟩ := h
  have hsame : (ts.zipIdx.filter fun p => p.1 ∉ (ts ++ rest).take p.2) =
      ts.zipIdx.filter fun p => p.1 ∉ ts.take p.2 := by
    refine List.filter_congr fun p hp => ?_
    rw [List.take_append_of_le_length (List.snd_lt_of_mem_zipIdx hp).le]
  rw [withoutRepeats, withoutRepeats, List.zipIdx_append, List.filter_append, List.map_append, hsame]
  exact List.prefix_append _ _

namespace Listing

/-- Going through the texts behind some others, with the set of those others, drops the texts that
occur earlier. -/
theorem firstOccurrences_behind (before : List String) : ∀ (ts : List String)
    (seen : Std.HashSet String), (∀ t, t ∈ seen ↔ t ∈ before) →
      firstOccurrences seen ts = ((ts.zipIdx before.length).filter
        fun p => p.1 ∉ (before ++ ts).take p.2).map Prod.fst
  | [], _, _ => rfl
  | t :: ts, seen, h => by
    have hhere : (before ++ t :: ts).take before.length = before := List.take_left
    have hsplit : before ++ t :: ts = (before ++ [t]) ++ ts := by simp
    have hlen : before.length + 1 = (before ++ [t]).length := by simp
    rw [firstOccurrences, List.zipIdx_cons, List.filter_cons, hhere]
    by_cases ht : t ∈ before
    · have hseen : seen.contains t = true := Std.HashSet.mem_iff_contains.mp ((h t).mpr ht)
      have hnext : ∀ u, u ∈ seen ↔ u ∈ before ++ [t] := by
        intro u
        rw [h u, List.mem_append, List.mem_singleton]
        exact ⟨.inl, fun hu => hu.elim id fun hut => hut ▸ ht⟩
      rw [if_pos hseen, if_neg (by simpa using ht), hsplit, hlen]
      exact firstOccurrences_behind (before ++ [t]) ts seen hnext
    · have hseen : ¬ seen.contains t = true :=
        fun hc => ht ((h t).mp (Std.HashSet.mem_iff_contains.mpr hc))
      have hnext : ∀ u, u ∈ seen.insert t ↔ u ∈ before ++ [t] := by
        intro u
        rw [Std.HashSet.mem_insert, h u, List.mem_append, List.mem_singleton, beq_iff_eq, or_comm,
          eq_comm]
      rw [if_neg hseen, if_pos (by simpa using ht), List.map_cons, hsplit, hlen]
      congr 1
      exact firstOccurrences_behind (before ++ [t]) ts (seen.insert t) hnext

/-- **Going through the texts with a set drops those that occur earlier.** -/
theorem firstOccurrences_eq (ts : List String) : firstOccurrences ∅ ts = withoutRepeats ts :=
  firstOccurrences_behind [] ts ∅ fun t => by simp

/-! ## Limits -/

/-- A limit as a number, infinite if there is none. -/
def bound : Option Nat → ℕ∞
  | some n => n
  | none => ⊤

variable {limit limit' : Option Nat} {c : Compiled}

/-- Under a higher limit, the same values come first. -/
theorem prefix_samples (h : bound limit ≤ bound limit') (distinct : Bool) :
    (Listing.mk limit distinct).samples c <+: (Listing.mk limit' distinct).samples c := by
  cases limit with
  | none =>
    cases limit' with
    | none => exact List.prefix_refl _
    | some n' => exact absurd h (not_le.mpr (ENat.natCast_lt_top n'))
  | some n =>
    simp only [samples, Cursor.take_eq_remaining, Cursor.toList_eq_remaining]
    cases limit' with
    | none => exact List.take_prefix n _
    | some n' => exact List.take_prefix_take_left (ENat.natCast_le_natCast.mp h)

/-- As many values are listed as the limit allows and as there are. -/
theorem length_samples (limit : Option Nat) (distinct : Bool) (c : Compiled) :
    (((Listing.mk limit distinct).samples c).length : ℕ∞) =
      min (bound limit) c.cursor.toList.length := by
  cases limit with
  | none => exact (min_eq_right le_top).symm
  | some n =>
    simp only [samples, bound, Cursor.take_eq_remaining, Cursor.toList_eq_remaining,
      List.length_take]
    exact Nat.mono_cast.map_min

end Listing

/-! ## Rendering -/

/-- **A text renders a sample**: behind some blanks, it is the sample's fragments that are not empty,
with single spaces between, and it does not start with a blank itself. -/
structure Sample.RenderedAs (s : Sample) (t : String) : Prop where
  joined : ∃ blanks : List Char, (∀ c ∈ blanks, Text.isBlank c = true) ∧
    (" ".intercalate (s.fragments.filter fun f => f ≠ "")).toList = blanks ++ t.toList
  start : ∀ c ∈ t.toList.head?, Text.isBlank c = false

/-- A sample's rendering renders it. -/
theorem Sample.rendered_render (s : Sample) : s.RenderedAs s.render where
  joined := by
    refine ⟨(" ".intercalate (s.fragments.filter fun f => f ≠ "")).toList.takeWhile Text.isBlank,
      fun c hc => List.mem_takeWhile_imp hc, ?_⟩
    rw [render, Text.trimStart, String.toList_ofList, List.takeWhile_append_dropWhile]
  start := by
    intro c hc
    rw [render, Text.trimStart, String.toList_ofList] at hc
    have hnot := List.head?_dropWhile_not Text.isBlank
      (" ".intercalate (s.fragments.filter fun f => f ≠ "")).toList
    rw [Option.mem_def.mp hc] at hnot
    exact hnot

namespace Listing

variable {limit limit' : Option Nat} {distinct : Bool} {c : Compiled}

theorem texts_false : (Listing.mk limit false).texts c =
    ((Listing.mk limit false).samples c).map Sample.render := rfl

theorem texts_true : (Listing.mk limit true).texts c =
    withoutRepeats ((Listing.mk limit false).texts c) :=
  firstOccurrences_eq _

/-- Under a higher limit, the same texts come first. -/
theorem prefix_texts (h : bound limit ≤ bound limit') (distinct : Bool) :
    (Listing.mk limit distinct).texts c <+: (Listing.mk limit' distinct).texts c := by
  have hall : (Listing.mk limit false).texts c <+: (Listing.mk limit' false).texts c :=
    (prefix_samples h false).map Sample.render
  cases distinct with
  | false => exact hall
  | true =>
    rw [texts_true, texts_true]
    exact prefix_withoutRepeats hall

/-- Texts are listed in the order of the values: each renders the value at its place. -/
theorem rendered_texts {i : Nat} {t : String} (h : ((Listing.mk limit false).texts c)[i]? = some t) :
    ∃ s : Sample, c.cursor.toList[i]? = some s ∧ s.RenderedAs t := by
  rw [texts_false, List.getElem?_map, Option.map_eq_some_iff] at h
  obtain ⟨s, hs, rfl⟩ := h
  have htop : bound limit ≤ bound none := le_top
  obtain ⟨rest, hrest⟩ : (Listing.mk limit false).samples c <+: c.cursor.toList :=
    prefix_samples htop false
  refine ⟨s, ?_, s.rendered_render⟩
  rw [← hrest, List.getElem?_append_left (List.getElem?_eq_some_iff.mp hs).1, hs]

/-- **Listings of one enumeration.** Under a higher limit, where none is the highest, a listing only
goes on. With repeated texts it has one for each value, up to the limit; without them it has the
same texts, each once and in the order of the first occurrences. Each text renders the value at its
first place, and none starts with a blank. -/
theorem texts_of_limits (c : Compiled) (h : bound limit ≤ bound limit') :
    let all := (Listing.mk limit false).texts c
    let once := (Listing.mk limit true).texts c
    (∀ distinct, (Listing.mk limit distinct).texts c <+: (Listing.mk limit' distinct).texts c) ∧
    (once = withoutRepeats all ∧ once.Nodup ∧ (∀ t, t ∈ once ↔ t ∈ all) ∧
      once.Pairwise fun s t => all.idxOf s < all.idxOf t) ∧
    (all.length : ℕ∞) = min (bound limit) c.cursor.toList.length ∧
    (∀ (i : Nat) (t : String), all[i]? = some t →
      ∃ s : Sample, c.cursor.toList[i]? = some s ∧ s.RenderedAs t) ∧
    ∀ t ∈ once, ∃ s : Sample, c.cursor.toList[all.idxOf t]? = some s ∧ s.RenderedAs t := by
  intro all once
  have honce : once = withoutRepeats all := texts_true
  have hmem (t : String) : t ∈ once ↔ t ∈ all := by rw [honce, mem_withoutRepeats]
  refine ⟨prefix_texts h, ⟨honce, ?nodup, hmem, ?order⟩, ?length, fun i t => rendered_texts,
    fun t ht => rendered_texts (List.getElem?_idxOf ((hmem t).mp ht))⟩
  case nodup => exact honce ▸ nodup_withoutRepeats all
  case order => exact honce ▸ pairwise_withoutRepeats all
  case length => rw [show all = _ from texts_false, List.length_map, length_samples]

/-- Two of three values render alike, as an empty text is left out and a blank in front is cut off.
With two values asked for, one text remains without repeated ones; with all three, a second one
follows. -/
theorem texts_of_limits_blank :
    let c : Compiled := .values (.cross
      [.choice [.literal "", .literal " ", .literal "a"], .literal "b"])
    bound (some 2) ≤ bound none ∧
    (Listing.mk (some 2) true).texts c <+: (Listing.mk none true).texts c ∧
    (Listing.mk (some 2) false).texts c = ["b", "b"] ∧
    (Listing.mk (some 2) true).texts c = ["b"] ∧
    (Listing.mk none true).texts c = ["b", "a b"] := by
  intro c
  have hle : bound (some 2) ≤ bound none := le_top
  have htwo : (Listing.mk (some 2) false).texts c = ["b", "b"] := by decide +kernel
  have hthree : (Listing.mk none false).texts c = ["b", "b", "a b"] := by decide +kernel
  refine ⟨hle, (texts_of_limits c hle).1 true, htwo, ?_, ?_⟩
  · rw [texts_true, htwo]
    decide
  · rw [texts_true, hthree]
    decide

end Listing

end ValueGrammar
