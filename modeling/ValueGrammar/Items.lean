/-!
# Lazy lists

Iterators, as far as the cursors and walks need them.

`Items α` is a finite list whose tail is computed only when it is asked for, so that a prefix of a
long list costs no more than its own length. `toList` is the list that it stands for.

Headlines:
* **`toList_range`**: a lazy range stands for the range.
-/

namespace ValueGrammar

/-- A list whose tail is not computed yet. -/
inductive Items (α : Type)
  | nil
  | cons (head : α) (tail : Unit → Items α)

namespace Items

variable {α : Type}

/-- All the items. -/
def toList : Items α → List α
  | nil => []
  | cons a rest => a :: (rest ()).toList

/-- The numbers from `first` on, `count` of them. -/
def range (first : Nat) : Nat → Items Nat
  | 0 => nil
  | count + 1 => cons first fun _ => range (first + 1) count

@[simp] theorem toList_nil : (nil : Items α).toList = [] := rfl

@[simp] theorem toList_cons (a : α) (rest : Unit → Items α) :
    (cons a rest).toList = a :: (rest ()).toList := rfl

@[simp] theorem toList_range : ∀ first count : Nat,
    (range first count).toList = List.range' first count
  | _, 0 => rfl
  | first, count + 1 => by rw [range, toList_cons, toList_range, List.range'_succ]

end Items

end ValueGrammar
