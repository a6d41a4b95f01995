/-!
# Generators

Model of `Generator`.

A generator describes a sequence of samples. It is data only: how the samples are listed is in
`Generator.Cursor`, how many there are in `Generator.Size`.

Counts are words of 64 bits.
-/

namespace ValueGrammar

/-- A description of a sequence of samples. -/
inductive Generator
  /-- One text. -/
  | literal (text : String)
  /-- The samples of each option in turn. -/
  | choice (options : List Generator)
  /-- One sample of each of some of the parts, in their order. -/
  | subset (parts : List Generator)
  /-- One sample of each part, in every order. -/
  | permutation (parts : List Generator)
  /-- One sample of each part, in their order. -/
  | cross (parts : List Generator)
  /-- From `least` to `most` samples of one generator. -/
  | repeated (inner : Generator) (least most : UInt64)
  /-- The first samples of a generator. -/
  | limited (inner : Generator) (count : UInt64)

end ValueGrammar
