import ValueGrammar.Proofs.Congruence

/-!
# Bracketing a run of operands

Operands side by side may be bracketed in any runs: the values are put together from other
sequences, but they read the same, in the same order, also when a repetition around them draws only
the first ones. The same holds of `|`, and brackets around anything are nothing at all.

A value is read as the list of its fragments, so that a product is a list of concatenations. The
concatenations of concatenations come in the order of all of them at once: the last part varies
fastest at both levels.

Headlines:
* **`concatenations_bracketed`**: a run of parts may be concatenated first.
* **`respected_readAlike`**: enumerations respect reading alike.
* **`compile_of_unbracketed`**: brackets, taken away anywhere, change nothing.
* **`renderings_of_bracketed`**: bracketing a run of operands keeps the texts of the values.
-/

namespace ValueGrammar

open Generator

/-! ## Concatenations -/

section Concatenations

variable {α β : Type}

theorem choices_map (f : α → β) : ∀ parts : List (List α),
    Cursor.choices (parts.map (List.map f)) = (Cursor.choices parts).map (List.map f)
  | [] => rfl
  | part :: parts => by
    rw [List.map_cons, Cursor.choices, Cursor.choices, choices_map f parts, List.flatMap_map,
      List.map_flatMap]
    simp only [List.map_map, Function.comp_def, List.map_cons]

/-- The concatenations of one word from each list, the last one varying fastest. -/
def concatenations (parts : List (List (List α))) : List (List α) :=
  (Cursor.choices parts).map List.flatten

theorem concatenations_cons (part : List (List α)) (parts : List (List (List α))) :
    concatenations (part :: parts) = part.flatMap fun w => (concatenations parts).map (w ++ ·) := by
  unfold concatenations
  rw [Cursor.choices, List.map_flatMap]
  simp only [List.map_map, Function.comp_def, List.flatten_cons]

theorem concatenations_append (parts rest : List (List (List α))) :
    concatenations (parts ++ rest) =
      (concatenations parts).flatMap fun w => (concatenations rest).map (w ++ ·) := by
  induction parts with
  | nil => simp [concatenations, Cursor.choices]
  | cons part parts ih =>
    rw [List.cons_append, concatenations_cons, concatenations_cons, ih, List.flatMap_assoc]
    simp only [List.map_flatMap, List.flatMap_map, List.map_map, Function.comp_def,
      List.append_assoc]

/-- **A run of parts may be concatenated first.** -/
theorem concatenations_bracketed (before run after : List (List (List α))) :
    concatenations (before ++ concatenations run :: after) =
      concatenations (before ++ run ++ after) := by
  rw [List.append_assoc, concatenations_append, concatenations_append before, concatenations_cons,
    ← concatenations_append]

end Concatenations

/-! ## Samples that read alike -/

/-- **Lists of samples read alike** if the samples have the same fragments, one by one. -/
def ReadAlike (xs ys : List Sample) : Prop := xs.map Sample.fragments = ys.map Sample.fragments

/-- What reads alike is rendered alike. -/
theorem ReadAlike.render {xs ys : List Sample} (h : ReadAlike xs ys) :
    xs.map Sample.render = ys.map Sample.render := by
  have hmap := congrArg (List.map fun w : List String =>
    Text.trimStart (" ".intercalate (w.filter fun t => t ≠ ""))) h
  rwa [List.map_map, List.map_map] at hmap

theorem ReadAlike.take {xs ys : List Sample} (h : ReadAlike xs ys) (n : Nat) :
    ReadAlike (xs.take n) (ys.take n) := by
  unfold ReadAlike
  rw [List.map_take, List.map_take, h]

/-- A product is read as concatenations. -/
theorem map_fragments_sequences (parts : List (List Sample)) :
    (sequences parts).map Sample.fragments =
      concatenations (parts.map (List.map Sample.fragments)) := by
  rw [concatenations, choices_map, sequences, List.map_map, List.map_map]
  refine List.map_congr_left fun s _ => ?_
  rw [Function.comp_apply, Function.comp_apply, Sample.fragments_seq, List.flatMap_def]

theorem map_map_of_readAlike {xss yss : List (List Sample)} (h : List.Forall₂ ReadAlike xss yss) :
    xss.map (List.map Sample.fragments) = yss.map (List.map Sample.fragments) := by
  induction h with
  | nil => rfl
  | cons h _ ih => rw [List.map_cons, List.map_cons, h, ih]

/-- Enumerations respect reading alike. -/
theorem respected_readAlike : Respected ReadAlike where
  refl _ := rfl
  append h h' := by
    unfold ReadAlike
    rw [List.map_append, List.map_append, h, h']
  sequences h := by
    unfold ReadAlike
    rw [map_fragments_sequences, map_fragments_sequences, map_map_of_readAlike h]

theorem readAlike_bound {limits : Limits} {g h : Generator}
    (hgh : ReadAlike g.enumeration h.enumeration) :
    ReadAlike (limits.bound g).enumeration (limits.bound h).enumeration := by
  unfold Limits.bound
  split
  · exact hgh.take _
  · exact hgh

theorem readAlike_cross (before run after : List Generator) :
    ReadAlike (cross (before ++ run ++ after)).enumeration
      (cross (before ++ cross run :: after)).enumeration := by
  unfold ReadAlike
  simp only [enumeration, map_fragments_sequences, enumerations_eq_map, List.map_append,
    List.map_cons, concatenations_bracketed]

theorem readAlike_choice (before run after : List Generator) :
    ReadAlike (choice (before ++ run ++ after)).enumeration
      (choice (before ++ choice run :: after)).enumeration := by
  simp only [ReadAlike, enumeration, enumerations_eq_map, List.map_append, List.map_cons,
    List.flatten_append, List.flatten_cons, List.append_assoc]

/-! ## Brackets -/

/-- Whether a run of a combinator's operands may be bracketed. -/
def Combinator.IsAssociative (c : Combinator) : Prop := c = .juxtaposition ∨ c = .oneOf

namespace Expr

/-- **A step of unbracketing**: one pair of brackets is taken away, anywhere in an expression. -/
inductive Unbrackets : Expr → Expr → Prop
  | group (k : Context) (body : Expr) : Unbrackets (k.fill (.group body)) (k.fill body)

variable {d e : Expr} {limits : Limits}

theorem generator_group (body : Expr) : (Expr.group body).generator limits = body.generator limits :=
  rfl

theorem compile_fill_group (body : Expr) :
    ∀ k : Context, (k.fill (.group body)).compile limits = (k.fill body).compile limits
  | .hole => rfl
  | .group k => compile_fill_group body k
  | .multiplied k m =>
    congrArg Compiled.values (generator_fill (generator_group body) (.multiplied k m))
  | .combined c before k after =>
    congrArg Compiled.values (generator_fill (generator_group body) (.combined c before k after))

/-- Brackets, taken away anywhere, change nothing. -/
theorem compile_of_unbracketed (h : Relation.ReflTransGen Unbrackets d e) :
    d.compile limits = e.compile limits := by
  induction h with
  | refl => rfl
  | tail _ hstep ih =>
    cases hstep with
    | group k body => exact ih.trans (compile_fill_group body k)

theorem readAlike_combined {c : Combinator} (hc : c.IsAssociative) (before run after : List Expr)
    (limits : Limits) :
    ReadAlike ((Expr.combined c (before ++ run ++ after)).generator limits).enumeration
      ((Expr.combined c (before ++ .group (.combined c run) :: after)).generator
        limits).enumeration := by
  simp only [generator, generators_eq_map, List.map_append, List.map_cons]
  rcases hc with rfl | rfl
  · exact readAlike_cross _ _ _
  · exact readAlike_choice _ _ _

/-- **Brackets around a run of operands change no text.** Anywhere in an expression and under all
limits, a run of operands that stand side by side, or of options, may be put into brackets: the
values are rendered as the same texts, in the same order and each as often. Brackets around a single
operand, and others that are taken away, do not even change what is compiled. -/
theorem renderings_of_bracketed (k : Context) {c : Combinator} (hc : c.IsAssociative)
    (before run after : List Expr) (limits : Limits) :
    ((k.fill (.combined c (before ++ run ++ after))).compile limits).cursor.toList.map
        Sample.render =
      ((k.fill (.combined c (before ++ .group (.combined c run) :: after))).compile
        limits).cursor.toList.map Sample.render ∧
    (∀ operand, run = [operand] →
      (k.fill (.combined c (before ++ run ++ after))).compile limits =
        (k.fill (.combined c (before ++ .group operand :: after))).compile limits) ∧
    ∀ d e, Relation.ReflTransGen Unbrackets d e → d.compile limits = e.compile limits := by
  refine ⟨?_, ?_, fun d e => compile_of_unbracketed⟩
  · rw [toList_cursor_compile, toList_cursor_compile]
    have hmultiply {g h : Generator} (m : Multiplier)
        (hgh : ReadAlike g.enumeration h.enumeration) :
        ReadAlike (limits.multiply g m).enumeration (limits.multiply h m).enumeration :=
      respected_readAlike.multiply readAlike_bound hgh m
    exact (respected_readAlike.fill hmultiply (readAlike_combined hc before run after limits)
      k).render
  · rintro operand rfl
    have hsame : (Expr.combined c (before ++ [operand] ++ after)).generator limits =
        (Expr.combined c (before ++ .group operand :: after)).generator limits := by
      simp only [generator, generators_eq_map, List.map_append, List.map_cons,
        List.append_assoc, List.singleton_append]
    rw [compile_fill_combined, compile_fill_combined, generator_fill hsame k]

/-- Under a count that draws three values only, two of three operands are bracketed. The brackets
around the operands themselves can be taken away, though what is left could not be written so. -/
theorem renderings_of_bracketed_run :
    let either (x y : String) : Expr :=
      .combined .oneOf [.leaf (.identifier x), .leaf (.identifier y)]
    let k : Context := .multiplied (.group .hole) (.counted 1 2)
    let plain : Expr := k.fill (.combined .juxtaposition
      [.leaf (.identifier "a"), .group (either "b" "c"), .group (either "d" "e")])
    let bracketed : Expr := k.fill (.combined .juxtaposition [.leaf (.identifier "a"),
      .group (.combined .juxtaposition [.group (either "b" "c"), .group (either "d" "e")])])
    let bare : Expr := k.fill (.combined .juxtaposition
      [.leaf (.identifier "a"), either "b" "c", either "d" "e"])
    (plain.compile ⟨4, some 3⟩).cursor.toList.map Sample.render =
        (bracketed.compile ⟨4, some 3⟩).cursor.toList.map Sample.render ∧
      ((plain.compile ⟨4, some 3⟩).cursor.take 4).map Sample.render =
        ["a b d", "a b e", "a c d", "a b d a b d"] ∧
      Relation.ReflTransGen Unbrackets plain bare ∧
      plain.compile ⟨4, some 3⟩ = bare.compile ⟨4, some 3⟩ := by
  intro either k plain bracketed bare
  obtain ⟨hrendered, -, hbare⟩ := renderings_of_bracketed k (.inl rfl) [.leaf (.identifier "a")]
    [.group (either "b" "c"), .group (either "d" "e")] [] ⟨4, some 3⟩
  have hfirst : Unbrackets plain (k.fill (.combined .juxtaposition
      [.leaf (.identifier "a"), either "b" "c", .group (either "d" "e")])) :=
    .group (.multiplied (.group (.combined .juxtaposition [.leaf (.identifier "a")] .hole
      [.group (either "d" "e")])) (.counted 1 2)) (either "b" "c")
  have hsecond : Unbrackets (k.fill (.combined .juxtaposition
      [.leaf (.identifier "a"), either "b" "c", .group (either "d" "e")])) bare :=
    .group (.multiplied (.group (.combined .juxtaposition
      [.leaf (.identifier "a"), either "b" "c"] .hole [])) (.counted 1 2)) (either "d" "e")
  have hsteps : Relation.ReflTransGen Unbrackets plain bare :=
    (Relation.ReflTransGen.single hfirst).tail hsecond
  exact ⟨hrendered, by decide +kernel, hsteps, hbare plain bare hsteps⟩

end Expr

end ValueGrammar
