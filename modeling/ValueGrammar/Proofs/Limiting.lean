import ValueGrammar.Proofs.Size

/-!
# Sizes under limits

Generators can be put together in any way, with empty parts and limits anywhere. A limit on a
generator without a size is taken for the number of samples, as if it was sure to be reached. That
is the only way to a wrong size: of a generator and all its parts, the sizes are right exactly if
each such limit is reached.

Headlines:
* **`Generator.inductionOn`**: what passes from the children of a generator to the whole holds of
  all generators.
* **`counted_of_reached`**: where limits are reached, every count is right, and none underflows.
* **`sizes_exact_iff_reached`**: the sizes of all parts are exact if and only if limits are reached.
-/

namespace ValueGrammar

namespace Generator

/-! ## The parts of a generator -/

/-- The generators that a generator is put together from. -/
def children : Generator → List Generator
  | .literal _ => []
  | .choice gs | .subset gs | .permutation gs | .cross gs => gs
  | .repeated inner _ _ | .limited inner _ => [inner]

/-- A generator is a part of itself, and so are the parts of its children. -/
inductive PartOf : Generator → Generator → Prop
  | refl (g : Generator) : PartOf g g
  | child {f h g : Generator} (hh : h ∈ g.children) (hf : PartOf f h) : PartOf f g

/-- Whether something holds of every part of a generator. -/
def Everywhere (P : Generator → Prop) (g : Generator) : Prop := ∀ h, PartOf h g → P h

variable {P : Generator → Prop} {g : Generator}

/-- What holds everywhere holds here and everywhere in the children. -/
theorem everywhere_iff : Everywhere P g ↔ P g ∧ ∀ h ∈ g.children, Everywhere P h := by
  constructor
  · intro h
    exact ⟨h g (.refl g), fun c hc f hf => h f (.child hc hf)⟩
  · rintro ⟨hg, hchildren⟩ f hf
    cases hf with
    | refl => exact hg
    | child hc hf => exact hchildren _ hc f hf

theorem PartOf.trans {f h g : Generator} (hf : PartOf f h) (hh : PartOf h g) : PartOf f g := by
  induction hh with
  | refl => exact hf
  | child hc _ ih => exact .child hc ih

/-- What holds everywhere in a generator holds everywhere in its parts. -/
theorem Everywhere.of_part {f : Generator} (h : Everywhere P g) (hf : PartOf f g) :
    Everywhere P f :=
  fun d hd => h d (hd.trans hf)

mutual

/-- What passes from the children of a generator to the whole holds of all generators. -/
theorem inductionOn (step : ∀ g : Generator, (∀ h ∈ g.children, P h) → P g) : ∀ g, P g
  | .literal text => step (.literal text) (List.forall_mem_nil _)
  | .choice options => step (.choice options) (inductionOnAll step options)
  | .subset parts => step (.subset parts) (inductionOnAll step parts)
  | .permutation parts => step (.permutation parts) (inductionOnAll step parts)
  | .cross parts => step (.cross parts) (inductionOnAll step parts)
  | .repeated inner least most =>
    step (.repeated inner least most) (List.forall_mem_singleton.mpr (inductionOn step inner))
  | .limited inner limit =>
    step (.limited inner limit) (List.forall_mem_singleton.mpr (inductionOn step inner))

/-- The same for every member of a list. -/
theorem inductionOnAll (step : ∀ g : Generator, (∀ h ∈ g.children, P h) → P g) :
    ∀ gs : List Generator, ∀ g ∈ gs, P g
  | [] => List.forall_mem_nil _
  | g :: gs => List.forall_mem_cons.mpr ⟨inductionOn step g, inductionOnAll step gs⟩

end

/-! ## Sizes that are exact -/

/-- Whether the counts of a generator itself are in order. -/
def IsOrdered : Generator → Prop
  | .repeated _ least most => least ≤ most
  | .literal _ | .choice _ | .subset _ | .permutation _ | .cross _ | .limited .. => True

/-- Whether the size of a generator, if there is one, is the number of its samples. -/
def HasExactSize (g : Generator) : Prop :=
  ∀ n, g.size = some n → (Cursor.ofGenerator g).toList.length = n

/-- Whether a limit on a generator without a size is reached. -/
def IsReached : Generator → Prop
  | .limited inner limit =>
    inner.size = none → limit.toNat ≤ (Cursor.ofGenerator inner).toList.length
  | .literal _ | .choice _ | .subset _ | .permutation _ | .cross _ | .repeated .. => True

open ValueGrammar.Count

theorem counted_limited {limit : UInt64} (h : Counted 0 g)
    (hreached : g.size = none → limit.toNat ≤ g.enumeration.length) :
    Counted 0 (.limited g limit) := by
  rw [Counted] at h
  rw [Counted, count_limited, length_limited]
  cases hc : g.count with
  | ok n =>
    rw [hc] at h
    exact congrArg (min · limit.toNat) h
  | error fault =>
    rw [hc] at h
    cases fault with
    | underflow => exact h.elim
    | overflow =>
      have hsize : g.size = none := by
        rw [Generator.size, hc]
        rfl
      exact (Nat.min_eq_right (hreached hsize)).symm

/-- A body without a size leaves its repetitions without one. -/
theorem counted_repeated_unlimited {least most : UInt64} (hle : least ≤ most) (h : Counted 0 g) :
    Counted 0 (.repeated g least most) :=
  @counted_repeated 0 g {} least most (Nat.zero_le _) (by simp) hle h
    fun h0 => absurd h0 (Nat.lt_irrefl 0)

/-- **Where limits are reached, every count is right**, and none underflows. -/
theorem counted_of_reached (g : Generator) (hordered : Everywhere IsOrdered g)
    (hreached : Everywhere IsReached g) : Counted 0 g := by
  induction g using inductionOn with
  | step g ih =>
    obtain ⟨ho, hordered⟩ := everywhere_iff.mp hordered
    obtain ⟨hr, hreached⟩ := everywhere_iff.mp hreached
    have hall : ∀ h ∈ g.children, Counted 0 h :=
      fun h hh => ih h hh (hordered h hh) (hreached h hh)
    have hnever {P : Prop} (h0 : 0 < 0) : P := absurd h0 (Nat.lt_irrefl 0)
    cases g with
    | literal text => exact counted_literal text
    | choice options => exact counted_choice (Nat.zero_le _) hall
    | subset parts => exact counted_subset (by decide) hall
    | permutation parts => exact counted_permutation (Nat.zero_le _) hall hnever
    | cross parts => exact counted_cross (Nat.zero_le _) hall hnever
    | repeated inner least most =>
      exact counted_repeated_unlimited ho (hall inner List.mem_cons_self)
    | limited inner limit =>
      refine counted_limited (hall inner List.mem_cons_self) fun hsize => ?_
      rw [← toList_ofGenerator]
      exact hr hsize

theorem hasExactSize_of_counted {floor : Nat} (h : Counted floor g) : g.HasExactSize := by
  intro n hn
  rw [toList_ofGenerator]
  exact length_eq_of_size h hn

/-- A limit on a generator without a size is the size of the limited one. -/
theorem size_limited_of_none {inner : Generator} {limit : UInt64} (h : inner.size = none)
    (hunder : inner.count ≠ .error .underflow) : (limited inner limit).size = some limit.toNat := by
  rw [Generator.size] at h ⊢
  rw [count_limited]
  cases hc : inner.count with
  | ok n =>
    rw [hc] at h
    cases h
  | error fault =>
    cases fault with
    | overflow => rfl
    | underflow => exact absurd hc hunder

/-- Where all sizes are exact, limits are reached: each is the size of what it limits. -/
theorem reached_of_hasExactSize (g : Generator) (hordered : Everywhere IsOrdered g)
    (hexact : Everywhere HasExactSize g) : Everywhere IsReached g := by
  induction g using inductionOn with
  | step g ih =>
    obtain ⟨-, hordered⟩ := everywhere_iff.mp hordered
    obtain ⟨hg, hexact⟩ := everywhere_iff.mp hexact
    have hchildren : ∀ h ∈ g.children, Everywhere IsReached h :=
      fun h hh => ih h hh (hordered h hh) (hexact h hh)
    refine everywhere_iff.mpr ⟨?_, hchildren⟩
    cases g with
    | limited inner limit =>
      intro hsize
      -- what is inside is counted without an underflow, since its own limits are reached
      have hinner := counted_of_reached inner (hordered inner List.mem_cons_self)
        (hchildren inner List.mem_cons_self)
      have hlen := hg _ (size_limited_of_none hsize (not_underflow_of_counted hinner))
      rw [toList_ofGenerator, length_limited] at hlen
      rw [toList_ofGenerator]
      exact min_eq_right_iff.mp hlen
    | literal | choice | subset | permutation | cross | repeated => trivial

/-- **Sizes are exact if and only if limits are reached.** In a generator whose counts are in order,
the size of every part that has one is the number of the part's samples exactly if every limit on a
part without a size is at most the number of that part's samples. -/
theorem sizes_exact_iff_reached {g : Generator} (h : Everywhere IsOrdered g) :
    Everywhere HasExactSize g ↔ Everywhere IsReached g := by
  refine ⟨reached_of_hasExactSize g h, fun hreached f hf => ?_⟩
  exact hasExactSize_of_counted (counted_of_reached f (h.of_part hf) (hreached.of_part hf))

/-- One of two letters. -/
def letter : Generator := .choice [.literal "a", .literal "b"]

/-- All texts of 64 letters, which are too many for a size. -/
def texts : Generator := .repeated letter 64 64

/-- Three of these texts, each with one more letter. -/
def threeTexts : Generator := .cross [.limited texts 3, letter]

/-- These texts in a product with an empty part, under a limit. -/
def noTexts : Generator := .limited (.cross [texts, .choice []]) 5

theorem everywhere_letter (hliteral : ∀ text, P (.literal text)) (h : P letter) :
    Everywhere P letter := by
  refine everywhere_iff.mpr ⟨h, List.forall_mem_cons.mpr ⟨?_, List.forall_mem_singleton.mpr ?_⟩⟩ <;>
    exact everywhere_iff.mpr ⟨hliteral _, List.forall_mem_nil _⟩

theorem everywhere_texts (hliteral : ∀ text, P (.literal text)) (hletter : P letter)
    (h : P texts) : Everywhere P texts :=
  everywhere_iff.mpr ⟨h, List.forall_mem_singleton.mpr (everywhere_letter hliteral hletter)⟩

theorem everywhere_threeTexts (hliteral : ∀ text, P (.literal text)) (hletter : P letter)
    (htexts : P texts) (hlimited : P (.limited texts 3)) (h : P threeTexts) :
    Everywhere P threeTexts := by
  have hthree : Everywhere P (.limited texts 3) := everywhere_iff.mpr
    ⟨hlimited, List.forall_mem_singleton.mpr (everywhere_texts hliteral hletter htexts)⟩
  exact everywhere_iff.mpr ⟨h, List.forall_mem_cons.mpr
    ⟨hthree, List.forall_mem_singleton.mpr (everywhere_letter hliteral hletter)⟩⟩

/-- The limit is reached although what it limits has no size, so all sizes are exact. -/
theorem sizes_exact_iff_reached_letters :
    Everywhere IsOrdered threeTexts ∧ Everywhere IsReached threeTexts ∧
      Everywhere HasExactSize threeTexts ∧ texts.size = none ∧ threeTexts.size = some 6 ∧
      (Cursor.ofGenerator threeTexts).toList.length = 6 := by
  have hordered : Everywhere IsOrdered threeTexts :=
    everywhere_threeTexts (fun _ => trivial) trivial UInt64.le_rfl trivial trivial
  have hreached : Everywhere IsReached threeTexts := by
    refine everywhere_threeTexts (fun _ => trivial) trivial trivial (fun _ => ?_) trivial
    rw [toList_ofGenerator, texts, length_repeated]
    decide
  have hexact := (sizes_exact_iff_reached hordered).mpr hreached
  have hsize : threeTexts.size = some 6 := by decide +kernel
  exact ⟨hordered, hreached, hexact, by decide +kernel, hsize,
    hexact threeTexts (.refl threeTexts) 6 hsize⟩

/-- A product with an empty part is empty. -/
theorem length_cross_eq_zero {gs : List Generator} (h : g ∈ gs) (hg : g.enumeration.length = 0) :
    (cross gs).enumeration.length = 0 := by
  rw [length_cross]
  exact List.prod_eq_zero (List.mem_map.mpr ⟨g, h, hg⟩)

/-- **A limit is reported for nothing**: a product with an empty part has no samples, but it has no
size if another part is too large, and then a limit on it is the size. -/
theorem limit_is_size_of_nothing : Everywhere IsOrdered noTexts ∧ noTexts.size = some 5 ∧
    (Cursor.ofGenerator noTexts).toList.length = 0 := by
  have htexts : Everywhere IsOrdered texts :=
    everywhere_texts (fun _ => trivial) trivial UInt64.le_rfl
  have hempty : Everywhere IsOrdered (.choice []) :=
    everywhere_iff.mpr ⟨trivial, List.forall_mem_nil _⟩
  have hproduct : Everywhere IsOrdered (.cross [texts, .choice []]) := everywhere_iff.mpr
    ⟨trivial, List.forall_mem_cons.mpr ⟨htexts, List.forall_mem_singleton.mpr hempty⟩⟩
  have hlen : (cross [texts, .choice []]).enumeration.length = 0 :=
    length_cross_eq_zero (List.mem_cons_of_mem texts List.mem_cons_self) (length_choice [])
  refine ⟨everywhere_iff.mpr ⟨trivial, List.forall_mem_singleton.mpr hproduct⟩,
    by decide +kernel, ?_⟩
  rw [noTexts, toList_ofGenerator, length_limited, hlen, Nat.zero_min]

end Generator

end ValueGrammar
