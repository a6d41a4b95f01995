import ValueGrammar.Compiled
import ValueGrammar.Proofs.Orderings
import ValueGrammar.Proofs.Selections

/-!
# Cursors refine the enumeration of their generator

`Generator.enumeration` says what a generator describes as plain lists: options one after another,
all choices from the parts of a product, and the sorted orderings, selections and counts. Cursors
answer one question at a time, and any number of them may be asked in any order (`Move`).

Headlines:
* **`remaining_ofGenerator`**: what a new cursor has to hand out is the enumeration.
* **`answer_after_moves`**: whatever is done to other cursors, a cursor's answers are the elements
  of the enumeration one after another, and nothing after the last.
-/

namespace ValueGrammar

open Arrangement

/-! ## The declarative enumeration -/

namespace Generator

/-- The sequences of one sample from each part, the last part varying fastest. -/
def sequences (parts : List (List Sample)) : List Sample := (Cursor.choices parts).map .seq

mutual

/-- The samples that a generator describes. -/
def enumeration : Generator → List Sample
  | .literal text => [.text text]
  | .choice options => (enumerations options).flatten
  | .subset parts => (sortedSelections parts.length).flatMap fun selection =>
    sequences (pick (enumerations parts) selection)
  | .permutation parts => (sortedOrderings parts.length).flatMap fun ordering =>
    sequences (pick (enumerations parts) ordering)
  | .cross parts => sequences (enumerations parts)
  | .repeated inner least most =>
    (List.range' least.toNat (most.toNat + 1 - least.toNat)).flatMap fun count =>
      sequences (List.replicate count inner.enumeration)
  | .limited inner count => inner.enumeration.take count.toNat

/-- The samples of each of several generators. -/
def enumerations : List Generator → List (List Sample)
  | [] => []
  | g :: gs => g.enumeration :: enumerations gs

end

theorem enumerations_eq_map : ∀ gs : List Generator, enumerations gs = gs.map enumeration
  | [] => rfl
  | g :: gs => by rw [enumerations, enumerations_eq_map gs, List.map_cons]

end Generator

/-! ## New cursors -/

theorem Arrangement.pick_map {α β : Type} (f : α → β) (parts : List α) (indices : List Nat) :
    pick (parts.map f) indices = (pick parts indices).map f := by
  unfold pick
  rw [List.map_filterMap]
  congr 1
  funext i
  rw [List.getElem?_map]

namespace Cursor

open Generator

theorem remaining_fresh (parts : List Cursor) :
    (fresh parts).remaining = sequences (parts.map remaining) := by
  rw [remaining, remainingEach_eq_map, sequences]

mutual

/-- **What a new cursor has to hand out is the enumeration.** -/
theorem remaining_ofGenerator : ∀ g : Generator, (ofGenerator g).remaining = g.enumeration
  | .literal text => rfl
  | .choice options => by
    rw [ofGenerator, remaining, remaining, List.nil_append, remainingAmong_queueOf, enumeration,
      ← map_remaining_ofGenerators options, ofGenerators_eq_map, List.map_map, List.flatMap_def]
    rfl
  | .subset parts => by
    rw [ofGenerator, remaining, remaining, List.nil_append, remainingAmong_queue,
      toList_selections, enumeration, ← map_remaining_ofGenerators parts]
    simp only [remaining_fresh, pick_map]
  | .permutation parts => by
    rw [ofGenerator, remaining, remaining, List.nil_append, remainingAmong_queue,
      toList_orderings, enumeration, ← map_remaining_ofGenerators parts]
    simp only [remaining_fresh, pick_map]
  | .cross parts => by
    rw [ofGenerator, remaining_fresh, map_remaining_ofGenerators parts, enumeration]
  | .repeated inner least most => by
    rw [ofGenerator, remaining, remaining, List.nil_append, remainingAmong_queue,
      Items.toList_range, enumeration, ← remaining_ofGenerator inner]
    simp only [remaining_fresh, List.map_replicate]
  | .limited inner count => by
    rw [ofGenerator, remaining, remaining_ofGenerator inner, enumeration]

theorem map_remaining_ofGenerators : ∀ gs : List Generator,
    (ofGenerators gs).map remaining = enumerations gs
  | [] => rfl
  | g :: gs => by
    rw [ofGenerators, List.map_cons, remaining_ofGenerator g, map_remaining_ofGenerators gs,
      enumerations]

end

/-! ## Several cursors at once -/

/-- What can be done to the cursors over a generator: open another one, or ask one of them. -/
inductive Move
  | opened
  | asked (index : Nat)
  deriving DecidableEq

/-- The cursors after a move. -/
def moved (g : Generator) (cursors : List Cursor) : Move → List Cursor
  | .opened => cursors ++ [ofGenerator g]
  | .asked i => cursors.modify i fun c => c.next.2

/-- What a cursor answers when it is asked. -/
def answer (cursors : List Cursor) (index : Nat) : Option Sample :=
  cursors[index]?.bind fun c => c.next.1

/-- A cursor loses one sample when it is asked, and none otherwise. -/
theorem remaining_moved {g : Generator} {cursors : List Cursor} {c : Cursor} {i : Nat}
    (h : cursors[i]? = some c) (move : Move) : ∃ after, (moved g cursors move)[i]? = some after ∧
      after.remaining = c.remaining.drop (if move = .asked i then 1 else 0) := by
  cases move with
  | opened =>
    refine ⟨c, ?_, by simp⟩
    rw [moved, List.getElem?_append_left (List.getElem?_eq_some_iff.mp h).1]
    exact h
  | asked j =>
    rw [moved, List.getElem?_modify, h]
    by_cases hj : j = i
    · subst hj
      refine ⟨c.next.2, by simp, ?_⟩
      rw [(next_eq c).2, if_pos rfl, List.drop_one]
    · refine ⟨c, by simp [hj], ?_⟩
      rw [if_neg (by simpa using hj), List.drop_zero]

theorem remaining_after_moves (g : Generator) (i : Nat) : ∀ (moves : List Move)
    (cursors : List Cursor) (c : Cursor), cursors[i]? = some c →
      ∃ after, (moves.foldl (moved g) cursors)[i]? = some after ∧
        after.remaining = c.remaining.drop (moves.count (.asked i))
  | [], _, c, h => ⟨c, h, rfl⟩
  | move :: moves, cursors, c, h => by
    obtain ⟨c', hc', hr'⟩ := remaining_moved (g := g) h move
    obtain ⟨after, hafter, hr⟩ := remaining_after_moves g i moves _ c' hc'
    refine ⟨after, hafter, ?_⟩
    rw [hr, hr', List.drop_drop, List.count_cons]
    simp only [beq_iff_eq, Nat.add_comm]

/-- **A cursor's answers are the elements of the enumeration one after another.** Of a cursor over
`g`, opened beside any others, the answer after any moves is the element whose place is the number
of times the cursor has been asked; past the last element there is no answer any more. -/
theorem answer_after_moves (g : Generator) (others : List Cursor) (moves : List Move) :
    answer (moves.foldl (moved g) (moved g others .opened)) others.length =
      g.enumeration[moves.count (.asked others.length)]? := by
  have hnew : (moved g others .opened)[others.length]? = some (ofGenerator g) := by
    rw [moved, List.getElem?_append_right (le_refl _), Nat.sub_self]
    rfl
  obtain ⟨after, hafter, hr⟩ := remaining_after_moves g others.length moves _ _ hnew
  rw [answer, hafter, Option.bind_some, (next_eq after).1, hr, remaining_ofGenerator,
    List.head?_drop]

end Cursor

/-! ## Compiled expressions -/

/-- The values of an expression are those of its generator, also when it is a single text. -/
theorem toList_cursor_compile (e : Expr) (limits : Limits) :
    (e.compile limits).cursor.toList = (e.generator limits).enumeration := by
  rw [Cursor.toList_eq_remaining, ← Expr.generator_ungroup limits e, Expr.compile]
  cases e.ungroup with
  | leaf l => rw [Compiled.cursor, Cursor.remaining_ofGenerator, Expr.generator]
  | group body => exact Cursor.remaining_ofGenerator _
  | multiplied body m => exact Cursor.remaining_ofGenerator _
  | combined c operands => exact Cursor.remaining_ofGenerator _

end ValueGrammar
