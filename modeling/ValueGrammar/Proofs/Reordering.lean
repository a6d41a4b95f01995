import ValueGrammar.Proofs.Congruence
import ValueGrammar.Proofs.Size

/-!
# Reordering operands

The operands of `&&` and `|` may stand in any order: the values of the whole expression are the same,
each as often, in another order, and there is a size for both or for none. For `&&` this rests on
the enumeration of all orderings: those of the reordered operands are the same orderings.

Sums and products of words are taken from left to right, and an overflow ends them. The order does
not matter if no factor is zero, since then no partial result is greater than the whole one.

Headlines:
* **`checkedSum_perm`**, **`checkedProduct_perm`**: sums and products are taken in any order.
* **`perm_permutation`**: the orderings of reordered parts are the same orderings.
* **`count_fill`**: what stands in a hole counts for the whole by its own count only.
* **`perm_of_reordered`**: reordering operands of `&&` and `|` anywhere keeps the values, as a
  multiset, and the size.
-/

namespace ValueGrammar

open Arrangement Generator

/-! ## Words in any order -/

namespace Count

variable {size total : Nat} {f : Nat → Count} {cs ds : List Count}

theorem fit_bind (n : Nat) : fit size n >>= f = if n < size then f n else .error .overflow := by
  unfold fit
  split <;> rfl

/-- **Two numbers are taken in either order**, if the outcome is the same and not less than what is
on the way to it. -/
theorem checked_swap {op : Nat → Nat → Nat} {a b : Count} (ha : a ≠ .error .underflow)
    (hb : b ≠ .error .underflow)
    (hop : ∀ m n, a = .ok m → b = .ok n → op (op total n) m = op (op total m) n ∧
      op total m ≤ op (op total m) n ∧ op total n ≤ op (op total m) n) :
    (a >>= fun m => fit size (op total m) >>= fun t => b >>= fun n => fit size (op t n) >>= f) =
      (b >>= fun n => fit size (op total n) >>= fun t => a >>= fun m => fit size (op t m) >>= f) := by
  have hover (n : Nat) :
      (fit size n >>= fun _ => .error .overflow) = (.error .overflow : Count) := by
    rw [fit_bind, ite_self]
  cases a with
  | error fault =>
    cases fault with
    | underflow => exact absurd rfl ha
    | overflow =>
      cases b with
      | ok n => exact (hover (op total n)).symm
      | error fault =>
        cases fault with
        | underflow => exact absurd rfl hb
        | overflow => rfl
  | ok m =>
    cases b with
    | error fault =>
      cases fault with
      | underflow => exact absurd rfl hb
      | overflow => exact hover (op total m)
    | ok n =>
      obtain ⟨hcomm, hm, hn⟩ := hop m n rfl rfl
      simp only [ok_bind, fit_bind, hcomm]
      by_cases hfits : op (op total m) n < size
      · rw [if_pos hfits, if_pos (hm.trans_lt hfits), if_pos (hn.trans_lt hfits)]
      · rw [if_neg hfits, ite_self, ite_self]

/-- A sum is taken in any order. -/
theorem checkedSum_perm (h : cs.Perm ds) (hunder : ∀ c ∈ cs, c ≠ .error .underflow) (total : Nat) :
    checkedSum total cs = checkedSum total ds := by
  induction h generalizing total with
  | nil => rfl
  | cons c _ ih =>
    simp only [checkedSum, ih (List.forall_mem_cons.mp hunder).2]
  | swap a b cs =>
    obtain ⟨hb, hrest⟩ := List.forall_mem_cons.mp hunder
    obtain ⟨ha, -⟩ := List.forall_mem_cons.mp hrest
    refine checked_swap hb ha fun m n _ _ => ⟨?_, ?_, ?_⟩ <;> omega
  | trans hcd _ ihcd ihde =>
    rw [ihcd hunder, ihde fun c hc => hunder c (hcd.mem_iff.mpr hc)]

/-- A product is taken in any order, if no factor is zero. -/
theorem checkedProduct_perm (h : cs.Perm ds) (hunder : ∀ c ∈ cs, c ≠ .error .underflow)
    (hpos : ∀ c ∈ cs, c ≠ .ok 0) (total : Nat) :
    checkedProduct total cs = checkedProduct total ds := by
  induction h generalizing total with
  | nil => rfl
  | cons c _ ih =>
    simp only [checkedProduct,
      ih (List.forall_mem_cons.mp hunder).2 (List.forall_mem_cons.mp hpos).2]
  | swap a b cs =>
    obtain ⟨hb, hrest⟩ := List.forall_mem_cons.mp hunder
    obtain ⟨ha, -⟩ := List.forall_mem_cons.mp hrest
    obtain ⟨hb0, hpos⟩ := List.forall_mem_cons.mp hpos
    obtain ⟨ha0, -⟩ := List.forall_mem_cons.mp hpos
    refine checked_swap hb ha fun m n hm hn => ?_
    have hm0 : 0 < m := Nat.pos_of_ne_zero fun h0 => hb0 (h0 ▸ hm)
    have hn0 : 0 < n := Nat.pos_of_ne_zero fun h0 => ha0 (h0 ▸ hn)
    have hcomm : total * n * m = total * m * n := Nat.mul_right_comm total n m
    exact ⟨hcomm, Nat.le_mul_of_pos_right _ hn0, hcomm ▸ Nat.le_mul_of_pos_right _ hm0⟩
  | trans hcd _ ihcd ihde =>
    rw [ihcd hunder hpos, ihde (fun c hc => hunder c (hcd.mem_iff.mpr hc))
      fun c hc => hpos c (hcd.mem_iff.mpr hc)]

end Count

/-! ## Enumerations in any order -/

theorem perm_choices {α : Type} {ps qs : List (List α)} (h : List.Forall₂ List.Perm ps qs) :
    (Cursor.choices ps).Perm (Cursor.choices qs) := by
  induction h with
  | nil => exact List.Perm.refl _
  | cons hp _ ih =>
    rw [Cursor.choices, Cursor.choices]
    exact hp.flatMap fun a _ => ih.map (a :: ·)

/-- Enumerations respect reordering. -/
theorem respected_perm : Respected List.Perm where
  refl := List.Perm.refl
  append := List.Perm.append
  sequences h := (perm_choices h).map Sample.seq

/-- The orderings of some parts are picked by the orderings of their indices. -/
theorem Arrangement.map_pick_permutations {α : Type} (parts : List α) :
    (List.range parts.length).permutations.map (pick parts) = parts.permutations := by
  have hsome : Function.Injective (List.map (some : α → Option α)) :=
    List.map_injective_iff.mpr (Option.some_injective α)
  refine List.map_injective_iff.mpr hsome ?_
  rw [List.map_permutations, map_some_eq, ← List.map_permutations, List.map_map]
  refine List.map_congr_left fun o ho => map_some_pick fun i hi => ?_
  exact List.mem_range.mp ((List.mem_permutations.mp ho).subset hi)

variable {gs hs : List Generator}

/-- The samples of a permutation, as a multiset, are the sequences of all orderings of its parts. -/
theorem permutation_perm_flatMap (gs : List Generator) :
    (permutation gs).enumeration.Perm ((enumerations gs).permutations.flatMap sequences) := by
  have hlen : gs.length = (enumerations gs).length := by rw [enumerations_eq_map, List.length_map]
  rw [enumeration, hlen, ← map_pick_permutations (enumerations gs), List.flatMap_map]
  exact (List.mergeSort_perm _ _).flatMap_right _

/-- The orderings of reordered parts are the same orderings. -/
theorem perm_permutation (h : gs.Perm hs) :
    (permutation gs).enumeration.Perm (permutation hs).enumeration := by
  have hparts : (enumerations gs).Perm (enumerations hs) := by
    rw [enumerations_eq_map, enumerations_eq_map]
    exact h.map enumeration
  exact ((permutation_perm_flatMap gs).trans (hparts.permutations.flatMap_right _)).trans
    (permutation_perm_flatMap hs).symm

/-- The options in another order have the same samples in another order. -/
theorem perm_choice (h : gs.Perm hs) : (choice gs).enumeration.Perm (choice hs).enumeration := by
  rw [enumeration, enumeration, enumerations_eq_map, enumerations_eq_map]
  exact (h.map enumeration).flatten

/-! ## Counts in a context -/

section Counts

variable {g h : Generator} (limits : Limits)

theorem count_combined {c : Combinator} (h : gs.map count = hs.map count) :
    (c.generator gs).count = (c.generator hs).count := by
  have hlen : gs.length = hs.length := by simpa using congrArg List.length h
  cases c <;> simp only [Combinator.generator, count_choice, count_subset, count_permutation,
    count_cross, h, hlen]

theorem count_repeated_bound (hgh : g.count = h.count) (least most : UInt64) :
    (repeated (limits.bound g) least most).count = (repeated (limits.bound h) least most).count := by
  unfold Limits.bound
  split <;> simp only [count_repeated, count_limited, hgh]

theorem count_multiply (hgh : g.count = h.count) (m : Multiplier) :
    (limits.multiply g m).count = (limits.multiply h m).count := by
  cases m with
  | optional | zeroOrMore | oneOrMore | counted => exact count_repeated_bound limits hgh _ _
  | commaSeparated =>
    have hpair : (cross [.literal ",", g]).count = (cross [.literal ",", h]).count := by
      simp only [count_cross, List.map_cons, hgh]
    have hrest := count_repeated_bound limits hpair 0 limits.repetitions
    rw [Limits.multiply, Limits.multiply, count_cross, count_cross]
    simp only [List.map_cons, List.map_nil, hgh, hrest]

/-- What stands in a hole counts for the whole by its own count only. -/
theorem count_fill {d e : Expr} (h : (d.generator limits).count = (e.generator limits).count) :
    ∀ k : Expr.Context, ((k.fill d).generator limits).count = ((k.fill e).generator limits).count
  | .hole => h
  | .group k => count_fill h k
  | .multiplied k m => count_multiply limits (count_fill h k) m
  | .combined c before k after => by
    rw [Expr.generator_fill_combined, Expr.generator_fill_combined]
    refine count_combined ?_
    rw [List.map_append, List.map_append, List.map_cons, List.map_cons, count_fill h k]

end Counts

/-! ## Expressions with values -/

section Values

variable {limits : Limits}

/-- The count of a well-formed expression is not zero. -/
theorem count_ne_zero (hd : limits.draws ≠ some 0) {e : Expr} (he : e.WellFormed) :
    (e.generator limits).count ≠ .ok 0 := by
  intro hzero
  obtain ⟨floor, hcounted⟩ := exists_counted limits he
  rw [Counted, hzero] at hcounted
  have hlen : 0 = (e.generator limits).enumeration.length := hcounted
  exact absurd (hlen ▸ pos_generator hd e he) (Nat.lt_irrefl 0)

end Values

/-! ## Reordered operands -/

/-- Whether the order of a combinator's operands says nothing. -/
def Combinator.IsUnordered (c : Combinator) : Prop := c = .allOf ∨ c = .oneOf

namespace Expr

/-- **A step of reordering**: anywhere in an expression, the operands of one `&&` or `|` are put in
another order. -/
inductive Reorders : Expr → Expr → Prop
  | operands (k : Context) {c : Combinator} {ds es : List Expr} (hc : c.IsUnordered)
      (h : ds.Perm es) : Reorders (k.fill (.combined c ds)) (k.fill (.combined c es))

/-- A well-formed part may be put in place of another one. -/
theorem wellFormed_fill {d e : Expr} (he : e.WellFormed) :
    ∀ k : Context, (k.fill d).WellFormed → (k.fill e).WellFormed
  | .hole, _ => he
  | .group k, h => everywhere_group.mpr ⟨trivial, wellFormed_fill he k (everywhere_group.mp h).2⟩
  | .multiplied k m, h => by
    obtain ⟨hm, hbody⟩ := everywhere_multiplied.mp h
    exact everywhere_multiplied.mpr ⟨hm, wellFormed_fill he k hbody⟩
  | .combined c before k after, h => by
    obtain ⟨h2, hall⟩ := everywhere_combined.mp h
    obtain ⟨hbefore, hinside⟩ := List.forall_mem_append.mp hall
    obtain ⟨hk, hafter⟩ := List.forall_mem_cons.mp hinside
    refine everywhere_combined.mpr ⟨?_, List.forall_mem_append.mpr ⟨hbefore,
      List.forall_mem_cons.mpr ⟨wellFormed_fill he k hk, hafter⟩⟩⟩
    simpa [IsWellMade] using h2

theorem wellFormed_of_fill {d : Expr} (k : Context) (h : (k.fill d).WellFormed) : d.WellFormed :=
  h.of_part (Context.partOf_fill d k)

variable {d e : Expr} (repetitions : UInt64)

/-- Reordered operands are counted alike: they all have values, and no count underflows. -/
theorem count_combined_perm {c : Combinator} {ds es : List Expr} (hc : c.IsUnordered)
    (hw : (Expr.combined c ds).WellFormed) (h : ds.Perm es) :
    ((Expr.combined c ds).generator ⟨repetitions, none⟩).count =
      ((Expr.combined c es).generator ⟨repetitions, none⟩).count := by
  obtain ⟨-, hall⟩ := everywhere_combined.mp hw
  have hgs := h.map (generator ⟨repetitions, none⟩)
  have hcounts := hgs.map count
  have hunder : ∀ n ∈ (ds.map (generator ⟨repetitions, none⟩)).map count,
      n ≠ .error .underflow := by
    rw [List.map_map]
    refine List.forall_mem_map.mpr fun e he => ?_
    obtain ⟨floor, hcounted⟩ := exists_counted ⟨repetitions, none⟩ (hall e he)
    exact not_underflow_of_counted hcounted
  have hzero : ∀ n ∈ (ds.map (generator ⟨repetitions, none⟩)).map count, n ≠ .ok 0 := by
    rw [List.map_map]
    exact List.forall_mem_map.mpr fun e he => count_ne_zero (by simp) (hall e he)
  rw [generator, generator, generators_eq_map, generators_eq_map]
  rcases hc with rfl | rfl
  · simp only [Combinator.generator, count_permutation, hgs.length_eq,
      Count.checkedProduct_perm hcounts hunder hzero]
  · simp only [Combinator.generator, count_choice, Count.checkedSum_perm hcounts hunder]

/-- Reordered operands of `&&` and `|` have the same values in another order. -/
theorem perm_combined {c : Combinator} {ds es : List Expr} (hc : c.IsUnordered) (h : ds.Perm es)
    (limits : Limits) : ((Expr.combined c ds).generator limits).enumeration.Perm
      ((Expr.combined c es).generator limits).enumeration := by
  rw [generator, generator, generators_eq_map, generators_eq_map]
  have hgs := h.map (generator limits)
  rcases hc with rfl | rfl
  · exact perm_permutation hgs
  · exact perm_choice hgs

/-- One step of reordering keeps an expression well formed, its values, and their count. -/
theorem perm_of_reorders (hw : d.WellFormed) (h : Reorders d e) : e.WellFormed ∧
    (d.generator ⟨repetitions, none⟩).enumeration.Perm
      (e.generator ⟨repetitions, none⟩).enumeration ∧
    ∃ g g', d.compile ⟨repetitions, none⟩ = .values g ∧
      e.compile ⟨repetitions, none⟩ = .values g' ∧ g.size = g'.size := by
  cases h with
  | @operands k c ds es hc h =>
    have hds := wellFormed_of_fill k hw
    obtain ⟨h2, hall⟩ := everywhere_combined.mp hds
    have hlen : 2 ≤ es.length := h.length_eq.le.trans' h2
    have hes : (Expr.combined c es).WellFormed :=
      everywhere_combined.mpr ⟨hlen, fun e he => hall e (h.mem_iff.mpr he)⟩
    refine ⟨wellFormed_fill hes k hw, ?_, _, _, compile_fill_combined _ c ds k,
      compile_fill_combined _ c es k, ?_⟩
    · exact respected_perm.fill (fun m hgh => respected_perm.multiply id hgh m)
        (perm_combined hc h _) k
    · rw [Generator.size, Generator.size,
        count_fill _ (count_combined_perm repetitions hc hds h) k]

/-- **The order of the operands of `&&` and `|` says nothing**, in any context. If any number of them
are reordered anywhere in a well-formed expression, then without a limit on draws the values are the
same, each as often, and the generators have the same size or none. -/
theorem perm_of_reordered (hw : d.WellFormed) (h : Relation.ReflTransGen Reorders d e) :
    (d.compile ⟨repetitions, none⟩).cursor.toList.Perm
        (e.compile ⟨repetitions, none⟩).cursor.toList ∧
      ∀ g, d.compile ⟨repetitions, none⟩ = .values g →
        ∃ g', e.compile ⟨repetitions, none⟩ = .values g' ∧ g'.size = g.size := by
  rw [toList_cursor_compile, toList_cursor_compile]
  induction h using Relation.ReflTransGen.head_induction_on with
  | refl => exact ⟨List.Perm.refl _, fun g hg => ⟨g, hg, rfl⟩⟩
  | head hstep _ ih =>
    obtain ⟨hw', hperm, g, g', hg, hg', hsize⟩ := perm_of_reorders repetitions hw hstep
    obtain ⟨hrest, hsizes⟩ := ih hw'
    refine ⟨hperm.trans hrest, fun f hf => ?_⟩
    obtain ⟨f', hf', hsize'⟩ := hsizes g' hg'
    cases hg.symm.trans hf
    exact ⟨f', hf', hsize'.trans hsize.symm⟩

/-- Under a count, the operands of `&&` are exchanged, and those of the `|` that is one of them: there
are twenty values either way. -/
theorem perm_of_reordered_nested :
    let a : Expr := .leaf (.identifier "a")
    let b : Expr := .leaf (.identifier "b")
    let c : Expr := .leaf (.identifier "c")
    let d : Expr := .multiplied (.group (.combined .allOf [.group (.combined .oneOf [a, b]), c]))
      (.counted 1 2)
    let e : Expr := .multiplied (.group (.combined .allOf [c, .group (.combined .oneOf [b, a])]))
      (.counted 1 2)
    d.WellFormed ∧ Relation.ReflTransGen Reorders d e ∧
      (d.compile ⟨4, none⟩).cursor.toList.Perm (e.compile ⟨4, none⟩).cursor.toList ∧
      ((d.compile ⟨4, none⟩).cursor.take 3).map Sample.render = ["a c", "b c", "c a"] ∧
      ((e.compile ⟨4, none⟩).cursor.take 3).map Sample.render = ["c b", "c a", "b c"] ∧
      ∃ g g', d.compile ⟨4, none⟩ = .values g ∧ g.size = some 20 ∧
        e.compile ⟨4, none⟩ = .values g' ∧ g'.size = some 20 := by
  intro a b c d e
  have hw : d.WellFormed := firstFlaw?_eq_none_iff.mp rfl
  have hinner : Reorders d (.multiplied
      (.group (.combined .allOf [.group (.combined .oneOf [b, a]), c])) (.counted 1 2)) :=
    .operands (.multiplied (.group (.combined .allOf [] (.group .hole) [c])) (.counted 1 2))
      (.inr rfl) (.swap b a [])
  have houter : Reorders (.multiplied
      (.group (.combined .allOf [.group (.combined .oneOf [b, a]), c])) (.counted 1 2)) e :=
    .operands (.multiplied (.group .hole) (.counted 1 2)) (.inl rfl)
      (.swap c (.group (.combined .oneOf [b, a])) [])
  have hsteps : Relation.ReflTransGen Reorders d e :=
    (Relation.ReflTransGen.single hinner).tail houter
  obtain ⟨hperm, hsizes⟩ := perm_of_reordered 4 hw hsteps
  obtain ⟨g', hg', hsize⟩ := hsizes _ rfl
  have hd : (d.generator ⟨4, none⟩).size = some 20 := by decide +kernel
  exact ⟨hw, hsteps, hperm, by decide +kernel, by decide +kernel, _, g', rfl, hd, hg',
    hsize.trans hd⟩

end Expr

end ValueGrammar
