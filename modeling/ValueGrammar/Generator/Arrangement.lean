import ValueGrammar.Items
import ValueGrammar.Word

/-!
# Orderings and selections of indices

Model of `IndexPermutations` and `IndexSubsets`.

An ordering of `0, …, n - 1` is a list that holds each index once; a selection is a non-empty
increasing list of indices. A walk hands out one after another, and then nothing, for ever:
orderings in lexicographic order, selections by their length and then in lexicographic order. It
keeps only the list that it hands out next, and turns to the one after it in the same step.

Out of scope: the memory that a list of indices takes.
-/

namespace ValueGrammar.Arrangement

/-! ## Walks -/

/-- A walk from one element to the next. -/
structure Walk (α : Type) where
  /-- What follows an element, if anything does. -/
  successor? : α → Except WordFault (Option α)
  /-- The element that is handed out next, if one is left. -/
  upcoming : Option α

namespace Walk

variable {α : Type}

/-- Hands out the upcoming element and turns to its successor. -/
def next (w : Walk α) : Except WordFault (Option α × Walk α) :=
  match w.upcoming with
  | none => .ok (none, w)
  | some a => do
    let upcoming ← w.successor? a
    return (some a, { w with upcoming })

/-- At its end a walk hands out nothing and stays where it is. -/
theorem next_of_none {w : Walk α} (h : w.upcoming = none) : w.next = .ok (none, w) := by
  rw [next, h]

theorem next_of_some {w : Walk α} {a : α} {upcoming : Option α} (ha : w.upcoming = some a)
    (hs : w.successor? a = .ok upcoming) : w.next = .ok (some a, { w with upcoming }) := by
  rw [next, ha]
  simp only [hs]
  rfl

/-- What is handed out is what was upcoming. -/
theorem fst_of_next {w after : Walk α} {a? : Option α} (h : w.next = .ok (a?, after)) :
    a? = w.upcoming := by
  cases hu : w.upcoming with
  | none =>
    cases (next_of_none hu).symm.trans h
    rfl
  | some a =>
    cases hs : w.successor? a with
    | error fault =>
      rw [next, hu] at h
      simp only [hs] at h
      cases h
    | ok upcoming =>
      cases (next_of_some hu hs).symm.trans h
      rfl

/-- The elements that a walk hands out, at most `bound` of them. -/
def items : Nat → Walk α → Items α
  | 0, _ => .nil
  | bound + 1, w =>
    match w.next with
    | .ok (some a, w) => .cons a fun _ => w.items bound
    | .ok (none, _) | .error _ => .nil

end Walk

/-! ## Orderings -/

/-- Whether the index at one place is less than the index at another. -/
def lessAt (l : List Nat) (i j : Nat) : Bool :=
  match l[i]?, l[j]? with
  | some a, some b => decide (a < b)
  | _, _ => false

/-- The last place whose index is less than the one right behind it. -/
def pivot? (l : List Nat) : Option Nat :=
  ((List.range' 1 (l.length - 1)).reverse.find? fun i => lessAt l (i - 1) i).map (· - 1)

/-- The last place behind a pivot whose index is larger. -/
def larger? (l : List Nat) (pivot : Nat) : Option Nat :=
  (List.range' (pivot + 1) (l.length - (pivot + 1))).reverse.find? fun j => lessAt l pivot j

/-- Exchanges what stands at two places. -/
def exchange (l : List Nat) (i j : Nat) : List Nat :=
  match l[i]?, l[j]? with
  | some a, some b => (l.set i b).set j a
  | _, _ => l

/-- Turns around what stands from a place on. -/
def reverseFrom (l : List Nat) (i : Nat) : List Nat := l.take i ++ (l.drop i).reverse

/-- The next ordering of the same indices: the pivot gives its place to the last larger index, and
what follows is turned around. -/
def nextOrdering? (l : List Nat) : Option (List Nat) :=
  (pivot? l).map fun pivot =>
    -- were no index larger, the place right behind the pivot would stand in
    reverseFrom (exchange l pivot ((larger? l pivot).getD (pivot + 1))) (pivot + 1)

/-- A walk through the orderings of `0, …, n - 1`. -/
def orderingWalk (n : Nat) : Walk (List Nat) where
  successor? l := .ok (nextOrdering? l)
  upcoming := some (List.range n)

/-- The number of orderings of `n` indices. -/
def orderingCount : Nat → Nat
  | 0 => 1
  | n + 1 => (n + 1) * orderingCount n

/-- The orderings of `0, …, n - 1`. -/
def orderings (n : Nat) : Items (List Nat) := (orderingWalk n).items (orderingCount n)

/-! ## Selections -/

/-- The greatest index for a place of a selection: those behind it need the greater ones. -/
def ceiling (n size place : Nat) : Count := do
  let slack ← minus n size
  return slack + place

/-- Whether the index at a place of a selection is below its ceiling. -/
def belowCeiling (n : Nat) (s : List Nat) (place : Nat) : Except WordFault Bool := do
  let most ← ceiling n s.length place
  return s[place]?.any fun a => decide (a < most)

/-- The last place of a selection whose index is below its ceiling. -/
def raisable? (n : Nat) (s : List Nat) : Except WordFault (Option Nat) :=
  (List.range s.length).reverse.findM? (belowCeiling n s)

/-- Puts the next index after that of the place before it. -/
def follow (s : List Nat) (place : Nat) : List Nat :=
  match s[place - 1]? with
  | some a => s.set place (a + 1)
  | none => s

/-- Raises the index at a place by one and lets the others follow it closely. -/
def raise (s : List Nat) (place : Nat) : List Nat :=
  (List.range' (place + 1) (s.length - (place + 1))).foldl follow (s.modify place (· + 1))

/-- The next selection from `n` indices: the next of the same length, or else the first that is
longer by one. -/
def nextSelection? (n : Nat) (s : List Nat) : Except WordFault (Option (List Nat)) := do
  match ← raisable? n s with
  | some place => return some (raise s place)
  | none => return if s.length < n then some (List.range (s.length + 1)) else none

/-- A walk through the selections from `0, …, n - 1`. -/
def selectionWalk (n : Nat) : Walk (List Nat) where
  successor? := nextSelection? n
  upcoming := if 0 < n then some [0] else none

/-- The selections from `0, …, n - 1`. -/
def selections (n : Nat) : Items (List Nat) := (selectionWalk n).items (Nat.pow 2 n)

/-! ## Picking parts -/

/-- The parts at some indices. -/
def pick {α : Type} (parts : List α) (indices : List Nat) : List α :=
  indices.filterMap fun i => parts[i]?

end ValueGrammar.Arrangement
