import Mathlib.Data.List.Forall2
import ValueGrammar.Proofs.Enumeration
import ValueGrammar.Proofs.Interchange

/-!
# Relations between enumerations

How the values of an expression change with a part of it, or with the limits, is said by a relation
between lists of samples. It is enough to look at two things that all enumerations are made of: lists
side by side, and sequences of one sample from each list. A relation that both of them
respect passes from the parts of a generator to the whole, and from what stands in the hole of a
context to the expression around it.

Headlines:
* **`Respected.combined`**, **`Respected.multiply`**: combinators and multipliers keep what their
  operands have in common.
* **`Respected.expr`**: under two limits, the values of an expression are related if multipliers
  respect the relation.
* **`Respected.fill`**: related values in a hole are related with their context.
-/

namespace ValueGrammar

open Arrangement Generator

/-! ## What is filled in -/

namespace Expr

variable {d e : Expr} {limits : Limits}

/-- Around a hole, a combinator has the generators of its operands and that of what is filled in. -/
theorem generator_fill_combined {c : Combinator} {before after : List Expr} {k : Context} :
    ((Context.combined c before k after).fill e).generator limits =
      c.generator (before.map (generator limits) ++
        (k.fill e).generator limits :: after.map (generator limits)) := by
  rw [Context.fill, generator, generators_eq_map, List.map_append, List.map_cons]

/-- A hole counts for the whole by its generator only. -/
theorem generator_fill (h : d.generator limits = e.generator limits) :
    ∀ k : Context, (k.fill d).generator limits = (k.fill e).generator limits
  | .hole => h
  | .group k => generator_fill h k
  | .multiplied k m => congrArg (limits.multiply · m) (generator_fill h k)
  | .combined c before k after => by
    rw [generator_fill_combined, generator_fill_combined, generator_fill h k]

/-- What holds operands is not a single text, whatever stands around it. -/
theorem compile_fill_combined (limits : Limits) (c : Combinator) (operands : List Expr) :
    ∀ k : Context, (k.fill (.combined c operands)).compile limits =
      .values ((k.fill (.combined c operands)).generator limits)
  | .hole | .multiplied .. | .combined .. => rfl
  | .group k => compile_fill_combined limits c operands k

end Expr

/-! ## Relations that enumerations respect -/

theorem Arrangement.forall₂_pick {α β : Type} {R : α → β → Prop} {ps : List α} {qs : List β}
    (h : List.Forall₂ R ps qs) (indices : List Nat) :
    List.Forall₂ R (pick ps indices) (pick qs indices) := by
  have hlen := h.length_eq
  unfold pick
  induction indices with
  | nil => exact .nil
  | cons i indices ih =>
    by_cases hi : i < ps.length
    · rw [List.filterMap_cons_some (List.getElem?_eq_getElem hi),
        List.filterMap_cons_some (List.getElem?_eq_getElem (hlen ▸ hi))]
      exact .cons (h.get hi (hlen ▸ hi)) ih
    · rw [List.filterMap_cons_none (List.getElem?_eq_none (by omega)),
        List.filterMap_cons_none (List.getElem?_eq_none (by omega))]
      exact ih

/-- A relation that lists keep side by side is kept by any number of them. -/
theorem flatten_of_append {α : Type} {R : List α → List α → Prop} (hnil : R [] [])
    (happend : ∀ {xs xs' ys ys' : List α}, R xs ys → R xs' ys' → R (xs ++ xs') (ys ++ ys'))
    {xss yss : List (List α)} (h : List.Forall₂ R xss yss) : R xss.flatten yss.flatten := by
  induction h with
  | nil => exact hnil
  | cons h _ ih => exact happend h ih

/-- **A relation between lists of samples that enumerations respect**: lists side by side are related
if they are one by one, and so are the sequences of one sample from each. -/
structure Respected (R : List Sample → List Sample → Prop) : Prop where
  refl : ∀ samples, R samples samples
  append : ∀ {xs xs' ys ys' : List Sample}, R xs ys → R xs' ys' → R (xs ++ xs') (ys ++ ys')
  sequences : ∀ {ps qs : List (List Sample)}, List.Forall₂ R ps qs → R (sequences ps) (sequences qs)

namespace Respected

variable {R : List Sample → List Sample → Prop} {g h : Generator} {limits limits' : Limits}

/-! ## Generators -/

theorem flatten (hR : Respected R) {xss yss : List (List Sample)} (h : List.Forall₂ R xss yss) :
    R xss.flatten yss.flatten :=
  flatten_of_append (hR.refl []) hR.append h

theorem flatMap (hR : Respected R) {α : Type} {as : List α} {f f' : α → List Sample}
    (h : ∀ a ∈ as, R (f a) (f' a)) : R (as.flatMap f) (as.flatMap f') := by
  refine hR.flatten ?_
  rw [List.forall₂_map_left_iff, List.forall₂_map_right_iff, List.forall₂_same]
  exact h

/-- **A combinator keeps what its operands have in common**: generators that are related, operand by
operand, are combined to generators that are. -/
theorem combined (hR : Respected R) (c : Combinator) {gs hs : List Generator}
    (h : List.Forall₂ (fun g h => R g.enumeration h.enumeration) gs hs) :
    R (c.generator gs).enumeration (c.generator hs).enumeration := by
  have hparts : List.Forall₂ R (enumerations gs) (enumerations hs) := by
    rw [enumerations_eq_map, enumerations_eq_map, List.forall₂_map_left_iff,
      List.forall₂_map_right_iff]
    exact h
  cases c with
  | juxtaposition =>
    rw [Combinator.generator, enumeration, enumeration]
    exact hR.sequences hparts
  | allOf =>
    rw [Combinator.generator, enumeration, enumeration, h.length_eq]
    exact hR.flatMap fun ordering _ => hR.sequences (forall₂_pick hparts ordering)
  | anyOf =>
    rw [Combinator.generator, enumeration, enumeration, h.length_eq]
    exact hR.flatMap fun selection _ => hR.sequences (forall₂_pick hparts selection)
  | oneOf =>
    rw [Combinator.generator, enumeration, enumeration]
    exact hR.flatten hparts

/-- Sequences of a number of samples are related if the samples are. -/
theorem replicate (hR : Respected R) {xs ys : List Sample} (h : R xs ys) (count : Nat) :
    R (Generator.sequences (List.replicate count xs))
      (Generator.sequences (List.replicate count ys)) := by
  refine hR.sequences (List.forall₂_iff_get.mpr ⟨by simp, fun i _ _ => ?_⟩)
  simpa using h

theorem repeated (hR : Respected R) (hgh : R g.enumeration h.enumeration) (least most : UInt64) :
    R (Generator.repeated g least most).enumeration
      (Generator.repeated h least most).enumeration := by
  rw [enumeration, enumeration]
  exact hR.flatMap fun count _ => hR.replicate hgh count

/-- A sample and its repetitions behind commas. -/
theorem commaSeparated (hR : Respected R) (rest rest' : Generator → Generator)
    (hrest : ∀ {g h : Generator}, R g.enumeration h.enumeration →
      R (rest g).enumeration (rest' h).enumeration) (hgh : R g.enumeration h.enumeration) :
    R (cross [g, rest (cross [.literal ",", g])]).enumeration
      (cross [h, rest' (cross [.literal ",", h])]).enumeration := by
  have hpair := hR.combined .juxtaposition
    (.cons (hR.refl (Generator.literal ",").enumeration) (.cons hgh .nil))
  exact hR.combined .juxtaposition (.cons hgh (.cons (hrest hpair) .nil))

/-- **A multiplier keeps what its bodies have in common**, whatever the bounds on draws, if what is
drawn from them has it in common. -/
theorem multiply (hR : Respected R) {repetitions : UInt64} {draws draws' : Option UInt64}
    (hbound : ∀ {g h : Generator}, R g.enumeration h.enumeration →
      R ((Limits.mk repetitions draws).bound g).enumeration
        ((Limits.mk repetitions draws').bound h).enumeration)
    (hgh : R g.enumeration h.enumeration) (m : Multiplier) :
    R ((Limits.mk repetitions draws).multiply g m).enumeration
      ((Limits.mk repetitions draws').multiply h m).enumeration := by
  cases m with
  | optional | zeroOrMore | oneOrMore | counted => exact hR.repeated (hbound hgh) _ _
  | commaSeparated =>
    exact hR.commaSeparated
      (fun g => .repeated ((Limits.mk repetitions draws).bound g) 0 repetitions)
      (fun h => .repeated ((Limits.mk repetitions draws').bound h) 0 repetitions)
      (fun hgh => hR.repeated (hbound hgh) 0 repetitions) hgh

/-! ## Expressions -/

/-- **Under two limits, the values of an expression are related**, if multipliers respect the
relation. -/
theorem expr (hR : Respected R) (limits limits' : Limits)
    (hmultiply : ∀ {g h : Generator} (m : Multiplier), R g.enumeration h.enumeration →
      R (limits.multiply g m).enumeration (limits'.multiply h m).enumeration) (e : Expr) :
    R (e.generator limits).enumeration (e.generator limits').enumeration := by
  induction e using Expr.inductionOn with
  | leaf l => exact hR.refl _
  | group body ih => exact ih
  | multiplied body m ih => exact hmultiply m ih
  | combined c operands ih =>
    rw [Expr.generator, Expr.generator, Expr.generators_eq_map, Expr.generators_eq_map]
    refine hR.combined c ?_
    rw [List.forall₂_map_left_iff, List.forall₂_map_right_iff, List.forall₂_same]
    exact ih

/-- **Related values in a hole are related with their context**, if multipliers respect the
relation. -/
theorem fill (hR : Respected R)
    (hmultiply : ∀ {g h : Generator} (m : Multiplier), R g.enumeration h.enumeration →
      R (limits.multiply g m).enumeration (limits.multiply h m).enumeration) {d e : Expr}
    (h : R (d.generator limits).enumeration (e.generator limits).enumeration) :
    ∀ k : Expr.Context,
      R ((k.fill d).generator limits).enumeration ((k.fill e).generator limits).enumeration
  | .hole => h
  | .group k => fill hR hmultiply h k
  | .multiplied k m => hmultiply m (fill hR hmultiply h k)
  | .combined c before k after => by
    have hsame (es : List Expr) : List.Forall₂ (fun g h => R g.enumeration h.enumeration)
        (es.map (Expr.generator limits)) (es.map (Expr.generator limits)) :=
      List.forall₂_same.mpr fun g _ => hR.refl g.enumeration
    rw [Expr.generator_fill_combined, Expr.generator_fill_combined]
    exact hR.combined c (List.rel_append (hsame before) (.cons (fill hR hmultiply h k)
      (hsame after)))

end Respected

end ValueGrammar
