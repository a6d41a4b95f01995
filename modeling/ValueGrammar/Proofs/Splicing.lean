import ValueGrammar.Proofs.Interchange
import ValueGrammar.Proofs.Resuming

/-!
# Splicing operands

Joining operands puts those of the same combinator in place of the expression they stand in, one
level deep, and lets a single operand stand for itself. So a combinator stands directly inside
itself afterwards exactly if it did before, in some operand.

A combinator's terms are what is left when it is taken apart at all levels. Joining keeps them, in
their order, whatever is joined. If the operands are flat, then it makes no difference whether some
of them have been joined before.

Headlines:
* **`nests_collect_iff`**: joining neither makes nor removes a combinator inside itself.
* **`nested_operand_stays_nested`**: operands that can be decoded, and are nested when joined.
* **`terms_collect`**: joining keeps the terms, in their order.
* **`collect_of_collected`**: flat operands may be joined in steps.
-/

namespace ValueGrammar

namespace Expr

/-! ## Combinators inside themselves -/

/-- The combinator that joins an expression, if one does. -/
def combinator? : Expr → Option Combinator
  | .combined c _ => some c
  | .leaf _ | .group _ | .multiplied .. => none

/-- **A combinator stands directly inside itself**: it joins an expression and one of the operands
as well. -/
def Nests (c : Combinator) (e : Expr) : Prop :=
  e.combinator? = some c ∧ ∃ o ∈ e.children, o.combinator? = some c

instance (c : Combinator) (e : Expr) : Decidable (e.Nests c) :=
  inferInstanceAs (Decidable (_ ∧ _))

/-- Whether an expression, if a combinator joins it, has two or more operands. -/
def JoinsSeveral (c : Combinator) (e : Expr) : Prop :=
  e.combinator? = some c → 2 ≤ e.children.length

/-- **An expression is flat for a combinator**: if the combinator joins it, then two or more
operands, none of which it joins itself. -/
def IsFlatFor (c : Combinator) (e : Expr) : Prop :=
  e.combinator? = some c → 2 ≤ e.children.length ∧ ∀ o ∈ e.children, o.combinator? ≠ some c

instance (c : Combinator) (e : Expr) : Decidable (e.IsFlatFor c) :=
  inferInstanceAs (Decidable (_ → _ ∧ _))

variable {c : Combinator} {e : Expr}

theorem eq_combined (h : e.combinator? = some c) : e = .combined c e.children := by
  cases e with
  | combined d operands =>
    obtain rfl := Option.some.inj h
    rfl
  | leaf _ | group _ | multiplied _ _ => cases h

theorem joinsSeveral_of_wellFormed (h : e.WellFormed) : e.JoinsSeveral c := by
  intro hc
  have hmade := (everywhere_iff.mp h).1
  rw [eq_combined hc] at hmade
  exact hmade

theorem joinsSeveral_of_isFlatFor (h : e.IsFlatFor c) : e.JoinsSeveral c := fun hc => (h hc).1

theorem not_nests_of_isFlatFor (h : e.IsFlatFor c) : ¬ e.Nests c := by
  rintro ⟨hc, o, ho, hoc⟩
  exact (h hc).2 o ho hoc

theorem not_nests_of_isFlat (h : e.IsFlat) : ¬ e.Nests c := by
  rintro ⟨hc, o, ho, hoc⟩
  rw [eq_combined hc] at h
  exact h o ho _ (eq_combined hoc)

end Expr

namespace Combinator

open ValueGrammar.Expr

variable {c : Combinator} {e only : Expr} {operands xs ys zs : List Expr}

/-! ## What is spliced in -/

theorem splice_eq (c : Combinator) (e : Expr) :
    c.splice e = if e.combinator? = some c then e.children else [e] := by
  cases e with
  | combined d operands => simp [splice, combinator?, children]
  | leaf _ | group _ | multiplied _ _ => rfl

/-- What an expression contributes to a combinator is joined by it again exactly if the combinator
stands directly inside itself there. -/
theorem exists_mem_splice_iff :
    (∃ o ∈ c.splice e, o.combinator? = some c) ↔ e.Nests c := by
  rw [splice_eq]
  split
  · next h => exact ⟨fun ho => ⟨h, ho⟩, fun hn => hn.2⟩
  · next h =>
    refine ⟨?_, fun hn => absurd hn.1 h⟩
    rintro ⟨o, ho, hoc⟩
    obtain rfl := List.mem_singleton.mp ho
    exact absurd hoc h

theorem splice_ne_nil (h : e.JoinsSeveral c) : c.splice e ≠ [] := by
  rw [splice_eq]
  split
  · next hc => exact List.ne_nil_of_length_pos (Nat.zero_lt_of_lt (h hc))
  · exact List.cons_ne_nil _ _

theorem flatMap_splice_eq_nil_iff (h : ∀ e ∈ operands, e.JoinsSeveral c) :
    operands.flatMap c.splice = [] ↔ operands = [] := by
  constructor
  · intro hnil
    refine List.eq_nil_iff_forall_not_mem.mpr fun e he => ?_
    exact splice_ne_nil (h e he) (List.flatMap_eq_nil_iff.mp hnil e he)
  · rintro rfl
    rfl

/-- If a single operand is spliced together, then it was the only one and has another
combinator. -/
theorem eq_singleton_of_flatMap_splice (h : ∀ e ∈ operands, e.JoinsSeveral c)
    (honly : operands.flatMap c.splice = [only]) :
    operands = [only] ∧ only.combinator? ≠ some c := by
  cases operands with
  | nil => cases honly
  | cons e es =>
    obtain ⟨he, hes⟩ := List.forall_mem_cons.mp h
    rw [List.flatMap_cons] at honly
    obtain ⟨hnil, -⟩ | ⟨hsplice, hrest⟩ := List.append_eq_singleton_iff.mp honly
    · exact absurd hnil (splice_ne_nil he)
    · obtain rfl := (flatMap_splice_eq_nil_iff hes).mp hrest
      rw [splice_eq] at hsplice
      split at hsplice
      · next hc =>
        have h2 := he hc
        rw [hsplice] at h2
        exact absurd h2 (by simp)
      · next hc =>
        obtain rfl := List.singleton_inj.mp hsplice
        exact ⟨rfl, hc⟩

/-! ## What is joined -/

/-- Either a single operand stands for itself, or the combinator joins all that are spliced in. -/
theorem collect_cases (h : ∀ e ∈ operands, e.JoinsSeveral c) :
    (∃ only, operands = [only] ∧ only.combinator? ≠ some c ∧ c.collect operands = only) ∨
      (operands.flatMap c.splice).length ≠ 1 ∧
        c.collect operands = .combined c (operands.flatMap c.splice) := by
  unfold collect
  split
  · next only honly =>
    obtain ⟨hone, hc⟩ := eq_singleton_of_flatMap_splice h honly
    exact .inl ⟨only, hone, hc, rfl⟩
  · next hnot =>
    refine .inr ⟨fun hlength => ?_, rfl⟩
    obtain ⟨only, honly⟩ := List.length_eq_one_iff.mp hlength
    exact hnot only honly

/-- What has been joined gives what its operands give. -/
theorem splice_collect (h : ∀ e ∈ operands, e.JoinsSeveral c) :
    c.splice (c.collect operands) = operands.flatMap c.splice := by
  obtain ⟨only, rfl, hc, heq⟩ | ⟨-, heq⟩ := collect_cases h
  · rw [heq, List.flatMap_singleton]
  · rw [heq, splice_self]

/-! ## Nested combinators -/

/-- **A combinator stands inside itself after joining exactly if it did before.** Of operands that
are decoded or parsed, all of them well formed, joining makes an expression in which the combinator
stands directly inside itself if and only if it does so in one of the operands: of such an operand
only the outer level is spliced in. In what is parsed it never does. -/
theorem nests_collect_iff (h : ∀ e ∈ operands, e.WellFormed) :
    ((c.collect operands).Nests c ↔ ∃ e ∈ operands, e.Nests c) ∧
      ((∀ e ∈ operands, Canonical e) → ¬ (c.collect operands).Nests c) := by
  have hiff : (c.collect operands).Nests c ↔ ∃ e ∈ operands, e.Nests c := by
    rw [← exists_mem_splice_iff, splice_collect fun e he => joinsSeveral_of_wellFormed (h e he)]
    simp only [← exists_mem_splice_iff, List.mem_flatMap]
    constructor
    · rintro ⟨o, ⟨e, he, ho⟩, hoc⟩
      exact ⟨e, he, o, ho, hoc⟩
    · rintro ⟨e, he, o, ho, hoc⟩
      exact ⟨o, ⟨e, he, ho⟩, hoc⟩
  refine ⟨hiff, fun hcanonical hnests => ?_⟩
  obtain ⟨e, he, hnested⟩ := hiff.mp hnests
  exact not_nests_of_isFlat (everywhere_iff.mp (flat_of_shaped (hcanonical e he))).1 hnested

/-- A decoded operand in which juxtaposition stands inside itself, joined with a parsed one; and
parsed ones only. -/
theorem nests_collect_iff_mixed :
    let leaf (name : String) : Expr := .leaf (.identifier name)
    let flat : Expr := .combined .juxtaposition [leaf "a", leaf "b"]
    let nested : Expr := .combined .juxtaposition [flat, leaf "c"]
    Expr.parse "a b" = .ok flat ∧ Expr.ofJson nested.toJson = .ok nested ∧
      (juxtaposition.collect [flat, nested]).Nests .juxtaposition ∧
      ¬ (juxtaposition.collect [flat, flat]).Nests .juxtaposition := by
  intro leaf flat nested
  have hflat : Expr.parse "a b" = .ok flat := by decide +kernel
  have hnested : Expr.ofJson nested.toJson = .ok nested := by decide +kernel
  have hmixed : ∀ e ∈ [flat, nested], e.WellFormed :=
    List.forall_mem_cons.mpr ⟨wellFormed_of_parse hflat,
      List.forall_mem_singleton.mpr (wellFormed_of_ofJson hnested)⟩
  have hparsed : ∀ e ∈ [flat, flat], Canonical e :=
    List.forall_mem_cons.mpr ⟨canonical_of_parse hflat,
      List.forall_mem_singleton.mpr (canonical_of_parse hflat)⟩
  refine ⟨hflat, hnested, (nests_collect_iff hmixed).1.mpr ⟨nested, by simp, by decide⟩, ?_⟩
  exact (nests_collect_iff fun e he => wellFormed_of_shaped (hparsed e he)).2 hparsed

/-- **Operands that can be decoded, and are nested when joined.** -/
theorem nested_operand_stays_nested :
    let leaf (name : String) : Expr := .leaf (.identifier name)
    let operands : List Expr :=
      [.combined .juxtaposition [.combined .juxtaposition [leaf "a", leaf "b"], leaf "c"], leaf "d"]
    (∀ e ∈ operands, Expr.ofJson e.toJson = .ok e) ∧
      juxtaposition.collect operands = .combined .juxtaposition
        [.combined .juxtaposition [leaf "a", leaf "b"], leaf "c", leaf "d"] ∧
      (juxtaposition.collect operands).Nests .juxtaposition := by
  decide +kernel

/-! ## Terms -/

mutual

/-- The terms of a combinator in an expression: what is left when the expression, and all that the
combinator joins in it, is taken apart. -/
def terms (c : Combinator) : Expr → List Expr
  | .combined d operands => if d = c then c.termsOfEach operands else [.combined d operands]
  | .leaf l => [.leaf l]
  | .group body => [.group body]
  | .multiplied body m => [.multiplied body m]

/-- The terms in each of several expressions. -/
def termsOfEach (c : Combinator) : List Expr → List Expr
  | [] => []
  | e :: es => c.terms e ++ c.termsOfEach es

end

@[simp] theorem termsOfEach_eq_flatMap (c : Combinator) :
    ∀ es : List Expr, c.termsOfEach es = es.flatMap c.terms
  | [] => rfl
  | e :: es => by rw [termsOfEach, termsOfEach_eq_flatMap c es, List.flatMap_cons]

theorem terms_of_combinator?_eq (h : e.combinator? = some c) :
    c.terms e = e.children.flatMap c.terms := by
  rw [eq_combined h, terms, if_pos rfl, termsOfEach_eq_flatMap]
  rfl

theorem terms_of_combinator?_ne (h : e.combinator? ≠ some c) : c.terms e = [e] := by
  cases e with
  | combined d operands => rw [terms, if_neg fun hd => h (congrArg some hd)]
  | leaf _ | group _ | multiplied _ _ => rfl

/-- The combinator joins none of its terms. -/
theorem combinator?_ne_of_mem_terms (e : Expr) : ∀ o ∈ c.terms e, o.combinator? ≠ some c := by
  induction e using Expr.inductionOn with
  | leaf l | group body | multiplied body m =>
    intro o ho
    obtain rfl := List.mem_singleton.mp ho
    exact nofun
  | combined d operands ih =>
    intro o ho
    by_cases hd : (Expr.combined d operands).combinator? = some c
    · rw [terms_of_combinator?_eq hd] at ho
      obtain ⟨e, he, hoe⟩ := List.mem_flatMap.mp ho
      exact ih e he o hoe
    · rw [terms_of_combinator?_ne hd] at ho
      obtain rfl := List.mem_singleton.mp ho
      exact hd

theorem flatMap_terms_splice (c : Combinator) (e : Expr) :
    (c.splice e).flatMap c.terms = c.terms e := by
  rw [splice_eq]
  split
  · next h => exact (terms_of_combinator?_eq h).symm
  · exact List.flatMap_singleton _ _

/-- **Joining keeps the terms**, in their order, whatever is joined. -/
theorem terms_collect (c : Combinator) (operands : List Expr) :
    c.terms (c.collect operands) = operands.flatMap c.terms := by
  have hspliced : (operands.flatMap c.splice).flatMap c.terms = operands.flatMap c.terms := by
    rw [List.flatMap_assoc]
    exact List.flatMap_congr fun e _ => flatMap_terms_splice c e
  rw [← hspliced]
  unfold collect
  split
  · next only honly => rw [honly, List.flatMap_singleton]
  · rw [terms, if_pos rfl, termsOfEach_eq_flatMap]

/-! ## Joining in steps -/

/-- What is joined depends only on what is spliced in. -/
theorem collect_congr {others : List Expr}
    (h : operands.flatMap c.splice = others.flatMap c.splice) :
    c.collect operands = c.collect others := by
  unfold collect
  rw [h]

/-- A run of operands may be joined first. -/
theorem collect_collect (xs zs : List Expr) (h : ∀ e ∈ ys, e.JoinsSeveral c) :
    c.collect (xs ++ [c.collect ys] ++ zs) = c.collect (xs ++ ys ++ zs) := by
  refine collect_congr ?_
  simp only [List.flatMap_append, List.flatMap_singleton, splice_collect h]

theorem isFlatFor_collect (h : ∀ e ∈ operands, e.IsFlatFor c) (hne : operands ≠ []) :
    (c.collect operands).IsFlatFor c := by
  have hseveral : ∀ e ∈ operands, e.JoinsSeveral c :=
    fun e he => joinsSeveral_of_isFlatFor (h e he)
  intro hc
  obtain ⟨only, -, hother, heq⟩ | ⟨hlength, heq⟩ := collect_cases hseveral
  · rw [heq] at hc
    exact absurd hc hother
  · have hpos : 0 < (operands.flatMap c.splice).length :=
      List.length_pos_of_ne_nil (mt (flatMap_splice_eq_nil_iff hseveral).mp hne)
    rw [heq, children]
    refine ⟨by omega, fun o ho hoc => ?_⟩
    obtain ⟨e, he, hoe⟩ := List.mem_flatMap.mp ho
    exact not_nests_of_isFlatFor (h e he) (exists_mem_splice_iff.mp ⟨o, hoe, hoc⟩)

/-- **Joining flat operands in steps.** If a run of them is joined first and the result joined with
the others, then this is what joining all at once gives. It is flat again exactly if there is an
operand at all; and it has the terms of the operands, in their order. -/
theorem collect_of_collected (h : ∀ e ∈ xs ++ ys ++ zs, e.IsFlatFor c) :
    c.collect (xs ++ [c.collect ys] ++ zs) = c.collect (xs ++ ys ++ zs) ∧
      ((c.collect (xs ++ ys ++ zs)).IsFlatFor c ↔ xs ++ ys ++ zs ≠ []) ∧
      c.terms (c.collect (xs ++ ys ++ zs)) = (xs ++ ys ++ zs).flatMap c.terms ∧
      ∀ o ∈ (xs ++ ys ++ zs).flatMap c.terms, o.combinator? ≠ some c := by
  refine ⟨?_, ⟨?_, isFlatFor_collect h⟩, terms_collect c _, ?_⟩
  · exact collect_collect xs zs fun e he => joinsSeveral_of_isFlatFor (h e (by simp [he]))
  · intro hflat hnil
    rw [hnil] at hflat
    exact absurd (hflat rfl).1 (Nat.not_succ_le_zero 1)
  · intro o ho
    obtain ⟨e, -, hoe⟩ := List.mem_flatMap.mp ho
    exact combinator?_ne_of_mem_terms e o hoe

/-- In the middle stand a chain of the same combinator and an operand of a tighter one; then
nothing at all, so that the only operand left stands for itself. -/
theorem collect_of_collected_uneven :
    let leaf (name : String) : Expr := .leaf (.identifier name)
    let either : Expr := .combined .oneOf [leaf "b", leaf "c"]
    let both : Expr := .combined .juxtaposition [leaf "d", leaf "e"]
    (∀ e ∈ [leaf "a"] ++ [either, both] ++ [leaf "f"], e.IsFlatFor .oneOf) ∧
      oneOf.collect ([leaf "a"] ++ [oneOf.collect [either, both]] ++ [leaf "f"]) =
        .combined .oneOf [leaf "a", leaf "b", leaf "c", both, leaf "f"] ∧
      oneOf.collect ([both] ++ [oneOf.collect []] ++ []) = both := by
  intro leaf either both
  have hmany : ∀ e ∈ [leaf "a"] ++ [either, both] ++ [leaf "f"], e.IsFlatFor .oneOf := by decide
  have hfew : ∀ e ∈ [both] ++ [] ++ [], e.IsFlatFor .oneOf := by decide
  refine ⟨hmany, ?_, ?_⟩
  · rw [(collect_of_collected hmany).1]
    rfl
  · rw [(collect_of_collected hfew).1]
    rfl

end Combinator

end ValueGrammar
