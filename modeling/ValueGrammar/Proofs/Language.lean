import Mathlib.Algebra.BigOperators.Group.List.Basic
import Mathlib.Algebra.Order.Monoid.Unbundled.Pow
import Mathlib.Computability.Language
import Mathlib.Data.List.Perm.Basic
import Mathlib.Order.CompletePartialOrder
import ValueGrammar.Proofs.Enumeration

/-!
# The language of an expression

A value is read as the list of its fragments. `Expr.language` is the set of such lists that an
expression stands for, by union, concatenation and powers of languages, with `repetitions` as the
greatest count of the open multipliers.

Each kind of generator enumerates the language that the kind stands for; a limit can only lose
values.

Headlines:
* **`words_sequences`**: a product enumerates the concatenations of its parts' languages.
* **`words_generator`**: a combinator's generator enumerates the combination of the operands.
* **`words_compile`**: the values of an expression are in its language, and without a limit on
  draws they are all of it.
-/

namespace ValueGrammar

open Arrangement Generator

/-! ## Languages -/

/-- From `least` to `most` words of a language, one after another. -/
def powersBetween (l : Language String) (least most : Nat) : Language String :=
  {w | ∃ k, least ≤ k ∧ k ≤ most ∧ w ∈ l ^ k}

/-- The language of operands under a combinator: one word of each in their order, or in any order,
or of some of the operands in their order, or a word of one of them. -/
def Combinator.language : Combinator → List (Language String) → Language String
  | .juxtaposition, ls => ls.prod
  | .allOf, ls => {w | ∃ ms : List (Language String), ms.Perm ls ∧ w ∈ ms.prod}
  | .anyOf, ls => {w | ∃ ms : List (Language String), ms.Sublist ls ∧ ms ≠ [] ∧ w ∈ ms.prod}
  | .oneOf, ls => {w | ∃ l ∈ ls, w ∈ l}

/-- The language of a term under a multiplier. -/
def Multiplier.language (repetitions : Nat) (l : Language String) : Multiplier → Language String
  | .optional => powersBetween l 0 1
  | .zeroOrMore => powersBetween l 0 repetitions
  | .oneOrMore => powersBetween l 1 (max repetitions 1)
  | .counted least most => powersBetween l least.toNat most.toNat
  | .commaSeparated => l * powersBetween ({[","]} * l) 0 repetitions

namespace Expr

mutual

/-- The lists of fragments that an expression stands for. -/
def language (repetitions : Nat) : Expr → Language String
  | .leaf l => {[l.text]}
  | .group body => body.language repetitions
  | .multiplied body m => m.language repetitions (body.language repetitions)
  | .combined c operands => c.language (languages repetitions operands)

/-- The languages of several expressions. -/
def languages (repetitions : Nat) : List Expr → List (Language String)
  | [] => []
  | e :: es => e.language repetitions :: languages repetitions es

end

theorem languages_eq_map (repetitions : Nat) : ∀ es : List Expr,
    languages repetitions es = es.map (language repetitions)
  | [] => rfl
  | e :: es => by rw [languages, languages_eq_map repetitions es, List.map_cons]

end Expr

/-- The lists of fragments of some samples. -/
def Sample.words (samples : List Sample) : Language String := {w | ∃ s ∈ samples, s.fragments = w}

namespace Sample

theorem mem_words {samples : List Sample} {w : List String} :
    w ∈ words samples ↔ ∃ s ∈ samples, s.fragments = w := Iff.rfl

theorem words_flatMap {α : Type} (as : List α) (f : α → List Sample) :
    words (as.flatMap f) = {w | ∃ a ∈ as, w ∈ words (f a)} := by
  ext w
  constructor
  · rintro ⟨s, hs, hw⟩
    obtain ⟨a, ha, hs⟩ := List.mem_flatMap.mp hs
    exact ⟨a, ha, s, hs, hw⟩
  · rintro ⟨a, ha, s, hs, hw⟩
    exact ⟨s, List.mem_flatMap.mpr ⟨a, ha, hs⟩, hw⟩

/-- **A product enumerates the concatenations of its parts' languages.** -/
theorem words_sequences : ∀ parts : List (List Sample),
    words (sequences parts) = (parts.map words).prod
  | [] => by
    ext w
    simp [sequences, Cursor.choices, mem_words, Language.mem_one, eq_comm]
  | part :: parts => by
    ext w
    rw [List.map_cons, List.prod_cons, ← words_sequences parts, Language.mem_mul]
    simp only [mem_words, sequences, Cursor.choices, List.mem_map, List.mem_flatMap]
    constructor
    · rintro ⟨_, ⟨_, ⟨a, ha, t, ht, rfl⟩, rfl⟩, rfl⟩
      exact ⟨_, ⟨a, ha, rfl⟩, _, ⟨_, ⟨t, ht, rfl⟩, rfl⟩, by simp⟩
    · rintro ⟨_, ⟨a, ha, rfl⟩, _, ⟨_, ⟨t, ht, rfl⟩, rfl⟩, rfl⟩
      exact ⟨_, ⟨_, ⟨a, ha, t, ht, rfl⟩, rfl⟩, by simp⟩

end Sample

/-! ## Picking parts -/

namespace Arrangement

variable {α : Type} {parts picked : List α} {indices : List Nat}

theorem map_some_pick (h : ∀ i ∈ indices, i < parts.length) :
    (pick parts indices).map some = indices.map fun i => parts[i]? := by
  induction indices with
  | nil => rfl
  | cons i indices ih =>
    have hlt := h i List.mem_cons_self
    have hi : parts[i]? = some parts[i] := List.getElem?_eq_getElem hlt
    unfold pick at *
    rw [List.filterMap_cons, hi, List.map_cons, List.map_cons, hi,
      ih fun j hj => h j (List.mem_cons_of_mem i hj)]

theorem map_some_eq (parts : List α) :
    parts.map some = (List.range parts.length).map fun i => parts[i]? := by
  refine List.ext_getElem (by simp) fun i h1 h2 => ?_
  have hi : i < parts.length := by simpa using h1
  rw [List.getElem_map, List.getElem_map, List.getElem_range, List.getElem?_eq_getElem hi]

theorem eq_pick (h : picked.map some = indices.map fun i => parts[i]?) :
    picked = pick parts indices := by
  have := congrArg (List.filterMap id) h
  rwa [List.filterMap_map, List.filterMap_map, Function.id_comp, Function.id_comp,
    List.filterMap_some] at this

theorem pick_range (parts : List α) : pick parts (List.range parts.length) = parts :=
  (eq_pick (map_some_eq parts)).symm

/-- The parts in any order are picked by the orderings of their indices. -/
theorem perm_iff_pick : picked.Perm parts ↔
    ∃ o : List Nat, o.Perm (List.range parts.length) ∧ picked = pick parts o := by
  constructor
  · intro h
    have hp : (picked.map some).Perm ((List.range parts.length).map fun i => parts[i]?) := by
      rw [← map_some_eq]
      exact h.map some
    obtain ⟨o, ho, hp⟩ : Relation.Comp (fun xs is => xs = is.map fun i => parts[i]?) List.Perm
        (picked.map some) (List.range parts.length) := by
      rw [List.eq_map_comp_perm]
      exact hp
    exact ⟨o, hp, eq_pick ho⟩
  · rintro ⟨o, ho, rfl⟩
    have := ho.filterMap fun i => parts[i]?
    rwa [← pick, ← pick, pick_range] at this

/-- Some of the parts in their order are picked by the sets of their indices. -/
theorem sublist_iff_pick : picked.Sublist parts ↔
    ∃ s : List Nat, s.Sublist (List.range parts.length) ∧ picked = pick parts s := by
  constructor
  · intro h
    have hs : (picked.map some).Sublist ((List.range parts.length).map fun i => parts[i]?) := by
      rw [← map_some_eq]
      exact h.map some
    obtain ⟨s, hs, he⟩ := List.sublist_map_iff.mp hs
    exact ⟨s, hs, eq_pick he⟩
  · rintro ⟨s, hs, rfl⟩
    have := hs.filterMap fun i => parts[i]?
    rwa [← pick, ← pick, pick_range] at this

theorem length_pick (h : ∀ i ∈ indices, i < parts.length) :
    (pick parts indices).length = indices.length := by
  simpa using congrArg List.length (map_some_pick h)

end Arrangement

/-! ## Generators -/

namespace Sample

theorem words_literal (t : String) : words (literal t).enumeration = {[t]} := by
  ext w
  rw [mem_words, enumeration]
  constructor
  · rintro ⟨s, hs, rfl⟩
    rw [List.mem_singleton.mp hs, fragments_text]
    exact Set.mem_singleton _
  · rintro rfl
    exact ⟨_, List.mem_singleton_self _, fragments_text t⟩

/-- **A combinator's generator enumerates the combination of the operands.** -/
theorem words_generator (c : Combinator) (gs : List Generator) :
    words (c.generator gs).enumeration = c.language (gs.map fun g => words g.enumeration) := by
  have hmap : (gs.map fun g => words g.enumeration) = (enumerations gs).map words := by
    rw [enumerations_eq_map, List.map_map]
    rfl
  have hlen : gs.length = ((enumerations gs).map words).length := by
    rw [enumerations_eq_map, List.length_map, List.length_map]
  rw [hmap]
  cases c with
  | juxtaposition => rw [Combinator.generator, enumeration, words_sequences, Combinator.language]
  | allOf =>
    rw [Combinator.generator, enumeration, words_flatMap, Combinator.language]
    ext w
    constructor
    · rintro ⟨o, ho, hw⟩
      rw [words_sequences, ← pick_map] at hw
      rw [mem_sortedOrderings, hlen] at ho
      exact ⟨_, perm_iff_pick.mpr ⟨o, ho, rfl⟩, hw⟩
    · rintro ⟨ms, hms, hw⟩
      obtain ⟨o, ho, rfl⟩ := perm_iff_pick.mp hms
      refine ⟨o, ?_, ?_⟩
      · rw [mem_sortedOrderings, hlen]
        exact ho
      · rw [words_sequences, ← pick_map]
        exact hw
  | anyOf =>
    rw [Combinator.generator, enumeration, words_flatMap, Combinator.language]
    ext w
    constructor
    · rintro ⟨s, hs, hw⟩
      rw [words_sequences, ← pick_map] at hw
      rw [mem_sortedSelections, hlen] at hs
      refine ⟨_, sublist_iff_pick.mpr ⟨s, sublist_range_iff.mpr hs.2, rfl⟩, ?_, hw⟩
      rw [← List.length_pos_iff, length_pick hs.2.lt_of_mem, List.length_pos_iff]
      exact hs.1
    · rintro ⟨ms, hms, hne, hw⟩
      obtain ⟨s, hs, rfl⟩ := sublist_iff_pick.mp hms
      refine ⟨s, ?_, ?_⟩
      · rw [mem_sortedSelections, hlen]
        refine ⟨?_, sublist_range_iff.mp hs⟩
        rintro rfl
        exact hne rfl
      · rw [words_sequences, ← pick_map]
        exact hw
  | oneOf =>
    rw [Combinator.generator, enumeration, ← List.flatMap_id, words_flatMap, Combinator.language]
    ext w
    constructor
    · rintro ⟨l, hl, hw⟩
      exact ⟨words l, List.mem_map.mpr ⟨l, hl, rfl⟩, hw⟩
    · rintro ⟨_, hl, hw⟩
      obtain ⟨l, hmem, rfl⟩ := List.mem_map.mp hl
      exact ⟨l, hmem, hw⟩

theorem words_repeated (g : Generator) (least most : UInt64) :
    words (repeated g least most).enumeration =
      powersBetween (words g.enumeration) least.toNat most.toNat := by
  rw [enumeration, words_flatMap]
  ext w
  constructor
  · rintro ⟨k, hk, hw⟩
    rw [words_sequences, List.map_replicate, List.prod_replicate] at hw
    have := List.mem_range'_1.mp hk
    exact ⟨k, by omega, by omega, hw⟩
  · rintro ⟨k, h1, h2, hw⟩
    refine ⟨k, List.mem_range'_1.mpr (by omega), ?_⟩
    rw [words_sequences, List.map_replicate, List.prod_replicate]
    exact hw

/-- A limit on draws can only lose values. -/
theorem words_bound_le (limits : Limits) (g : Generator) :
    words (limits.bound g).enumeration ≤ words g.enumeration := by
  unfold Limits.bound
  split
  · rintro w ⟨s, hs, hw⟩
    exact ⟨s, List.mem_of_mem_take hs, hw⟩
  · exact le_refl _

theorem words_bound_of_unlimited {limits : Limits} (h : limits.draws = none) (g : Generator) :
    words (limits.bound g).enumeration = words g.enumeration := by
  rw [Limits.bound, h]

end Sample

/-! ## Larger parts, larger languages -/

theorem powersBetween_mono {l m : Language String} (h : l ≤ m) (least most : Nat) :
    powersBetween l least most ≤ powersBetween m least most := by
  rintro w ⟨k, h1, h2, hw⟩
  exact ⟨k, h1, h2, pow_le_pow_left' h k hw⟩

theorem prod_map_mono {α : Type} {f g : α → Language String} : ∀ {as : List α},
    (∀ a ∈ as, f a ≤ g a) → (as.map f).prod ≤ (as.map g).prod
  | [], _ => le_refl _
  | a :: as, h => by
    rw [List.map_cons, List.map_cons, List.prod_cons, List.prod_cons]
    exact mul_le_mul' (h a List.mem_cons_self)
      (prod_map_mono fun b hb => h b (List.mem_cons_of_mem a hb))

theorem Combinator.language_mono {α : Type} (c : Combinator) {f g : α → Language String}
    {as : List α} (h : ∀ a ∈ as, f a ≤ g a) : c.language (as.map f) ≤ c.language (as.map g) := by
  cases c with
  | juxtaposition => exact prod_map_mono h
  | allOf =>
    rintro w ⟨ms, hms, hw⟩
    obtain ⟨bs, rfl, hbs⟩ : Relation.Comp (fun ls bs => ls = bs.map f) List.Perm ms as := by
      rw [List.eq_map_comp_perm]
      exact hms
    exact ⟨_, hbs.map g, prod_map_mono (fun b hb => h b (hbs.subset hb)) hw⟩
  | anyOf =>
    rintro w ⟨ms, hms, hne, hw⟩
    obtain ⟨bs, hbs, rfl⟩ := List.sublist_map_iff.mp hms
    refine ⟨_, hbs.map g, ?_, prod_map_mono (fun b hb => h b (hbs.subset hb)) hw⟩
    simpa using hne
  | oneOf =>
    rintro w ⟨_, hl, hw⟩
    obtain ⟨a, ha, rfl⟩ := List.mem_map.mp hl
    exact ⟨g a, List.mem_map.mpr ⟨a, ha, rfl⟩, h a ha hw⟩

theorem Multiplier.language_mono (repetitions : Nat) {l k : Language String} (h : l ≤ k)
    (m : Multiplier) : m.language repetitions l ≤ m.language repetitions k := by
  cases m with
  | commaSeparated => exact mul_le_mul' h (powersBetween_mono (mul_le_mul' (le_refl _) h) _ _)
  | _ => exact powersBetween_mono h _ _

/-! ## Multipliers -/

theorem toNat_max_one (n : UInt64) : (max n 1).toNat = max n.toNat 1 := by
  rw [show max n 1 = if n ≤ 1 then 1 else n from rfl]
  split
  · rename_i h
    have : n.toNat ≤ 1 := UInt64.le_iff_toNat_le.mp h
    rw [show (1 : UInt64).toNat = 1 from rfl]
    omega
  · rename_i h
    have : ¬ n.toNat ≤ 1 := fun hn => h (UInt64.le_iff_toNat_le.mpr hn)
    omega

namespace Sample

theorem words_repeated_bound (limits : Limits) (g : Generator) (least most : UInt64) :
    words (repeated (limits.bound g) least most).enumeration ≤
        powersBetween (words g.enumeration) least.toNat most.toNat ∧
      (limits.draws = none → words (repeated (limits.bound g) least most).enumeration =
        powersBetween (words g.enumeration) least.toNat most.toNat) := by
  rw [words_repeated]
  refine ⟨powersBetween_mono (words_bound_le limits g) _ _, fun h => ?_⟩
  rw [words_bound_of_unlimited h]

/-- A comma and a sample of a generator. -/
theorem words_comma (g : Generator) :
    words (cross [.literal ",", g]).enumeration = {[","]} * words g.enumeration := by
  have := words_generator .juxtaposition [.literal ",", g]
  rw [Combinator.generator, Combinator.language, List.map_cons, List.map_singleton,
    List.prod_cons, List.prod_singleton, words_literal] at this
  exact this

/-- A generator under a multiplier enumerates words of the language under the multiplier, and all of
them if draws are not limited. -/
theorem words_multiply (limits : Limits) (g : Generator) (m : Multiplier) :
    words (limits.multiply g m).enumeration ≤
        m.language limits.repetitions.toNat (words g.enumeration) ∧
      (limits.draws = none → words (limits.multiply g m).enumeration =
        m.language limits.repetitions.toNat (words g.enumeration)) := by
  cases m with
  | optional => exact words_repeated_bound limits g 0 1
  | zeroOrMore => exact words_repeated_bound limits g 0 limits.repetitions
  | oneOrMore =>
    have h := words_repeated_bound limits g 1 (max limits.repetitions 1)
    rw [toNat_max_one] at h
    exact h
  | counted least most =>
    have h := words_repeated_bound limits g least.toUInt64 most.toUInt64
    rw [UInt32.toNat_toUInt64, UInt32.toNat_toUInt64] at h
    exact h
  | commaSeparated =>
    obtain ⟨hle, heq⟩ := words_repeated_bound limits (cross [.literal ",", g]) 0 limits.repetitions
    have hpair := words_generator .juxtaposition
      [g, .repeated (limits.bound (.cross [.literal ",", g])) 0 limits.repetitions]
    rw [Combinator.generator, Combinator.language, List.map_cons, List.map_singleton,
      List.prod_cons, List.prod_singleton] at hpair
    rw [Limits.multiply, hpair, Multiplier.language]
    rw [words_comma] at hle heq
    exact ⟨mul_le_mul' (le_refl _) hle, fun h => by rw [heq h]; rfl⟩

end Sample

/-! ## Expressions -/

theorem words_expr (limits : Limits) : ∀ e : Expr,
    Sample.words (e.generator limits).enumeration ≤ e.language limits.repetitions.toNat ∧
      (limits.draws = none →
        Sample.words (e.generator limits).enumeration = e.language limits.repetitions.toNat) := by
  intro e
  induction e using Expr.inductionOn with
  | leaf l =>
    rw [Expr.generator, Sample.words_literal, Expr.language]
    exact ⟨le_refl _, fun _ => rfl⟩
  | group body ih =>
    rw [Expr.generator, Expr.language]
    exact ih
  | multiplied body m ih =>
    obtain ⟨hle, heq⟩ := Sample.words_multiply limits (body.generator limits) m
    rw [Expr.generator, Expr.language]
    refine ⟨hle.trans (m.language_mono _ ih.1), fun h => ?_⟩
    rw [heq h, ih.2 h]
  | combined c operands ih =>
    rw [Expr.generator, Sample.words_generator, Expr.language, Expr.languages_eq_map,
      Expr.generators_eq_map, List.map_map]
    refine ⟨c.language_mono fun e he => (ih e he).1, fun h => ?_⟩
    congr 1
    exact List.map_congr_left fun e he => (ih e he).2 h

/-- **The values of an expression are in its language, and without a limit on draws they are all of
it.** -/
theorem words_compile (e : Expr) (limits : Limits) :
    Sample.words (e.compile limits).cursor.toList ≤ e.language limits.repetitions.toNat ∧
      Sample.words (e.compile { limits with draws := none }).cursor.toList =
        e.language limits.repetitions.toNat := by
  rw [toList_cursor_compile, toList_cursor_compile]
  exact ⟨(words_expr limits e).1, (words_expr { limits with draws := none } e).2 rfl⟩

end ValueGrammar
