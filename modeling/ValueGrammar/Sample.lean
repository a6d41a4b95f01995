import ValueGrammar.Text.Blank

/-!
# Samples

Model of `Sample` (`flatten`, `render`).

A sample is one value of an expression: a text, or a sequence of samples. Its fragments are the
texts in it from left to right; its rendering joins those that are not empty.

Headlines:
* **`fragments_seq`**: the fragments of a sequence are those of its items, one after another.
-/

namespace ValueGrammar

/-- One value: a text, or values one after another. -/
inductive Sample
  | text (text : String)
  | seq (items : List Sample)

namespace Sample

mutual

/-- The texts in a sample, from left to right. -/
def fragments : Sample → List String
  | .text t => [t]
  | .seq items => allFragments items

/-- The texts in several samples, from left to right. -/
def allFragments : List Sample → List String
  | [] => []
  | s :: ss => s.fragments ++ allFragments ss

end

/-- The fragments that are not empty, with single spaces between, without leading blanks. -/
def render (s : Sample) : String :=
  Text.trimStart (" ".intercalate (s.fragments.filter fun t => t ≠ ""))

theorem allFragments_eq_flatMap : ∀ ss : List Sample, allFragments ss = ss.flatMap fragments
  | [] => rfl
  | s :: ss => by rw [allFragments, allFragments_eq_flatMap ss, List.flatMap_cons]

/-- The fragments of a sequence are those of its items, one after another. -/
@[simp] theorem fragments_seq (ss : List Sample) : (seq ss).fragments = ss.flatMap fragments := by
  rw [fragments, allFragments_eq_flatMap]

@[simp] theorem fragments_text (t : String) : (text t).fragments = [t] := by rw [fragments]

end Sample

end ValueGrammar
