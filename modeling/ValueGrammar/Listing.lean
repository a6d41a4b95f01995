import Std.Data.HashSet.Basic
import ValueGrammar.Compiled

/-!
# Listing values as text

Model of `samples` and `SampleOptions`.

A listing renders a prefix of an enumeration. The limit counts enumerated values; repeated texts
are dropped afterwards, so that fewer texts than the limit may remain.
-/

namespace ValueGrammar

/-- How many values are listed, all if there is no limit, and whether repeated texts are dropped. -/
structure Listing where
  limit : Option Nat := some 10
  distinct : Bool := true

namespace Listing

/-- Every value, repeated or not. -/
def exhaustive : Listing := ⟨none, false⟩

/-- The texts that occur neither earlier nor among those seen before. -/
def firstOccurrences (seen : Std.HashSet String) : List String → List String
  | [] => []
  | t :: ts =>
    if seen.contains t then firstOccurrences seen ts
    else t :: firstOccurrences (seen.insert t) ts

/-- The values that a listing asks for. -/
def samples (l : Listing) (c : Compiled) : List Sample :=
  match l.limit with
  | some n => c.cursor.take n
  | none => c.cursor.toList

/-- The texts that a listing asks for. -/
def texts (l : Listing) (c : Compiled) : List String :=
  let rendered := (l.samples c).map Sample.render
  if l.distinct then firstOccurrences ∅ rendered else rendered

end Listing

end ValueGrammar
