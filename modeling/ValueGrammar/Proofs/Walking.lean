import Mathlib.Data.List.Chain
import Mathlib.Data.List.Lex
import ValueGrammar.Generator.Arrangement

/-!
# Walks through sorted lists

A successor function goes through a sorted list when it always gives the least of the larger
elements (`Succession`). A walk from the first element then hands out the list, element by element,
and nothing after the last.

Successors are found from the end of a list, and they keep what stands before the place that is
found. So does every list between a list and its successor, which is why only the rest of it
matters.

Headlines:
* **`owes_of_succession`**: a walk from the first element of a sorted list owes the whole list.
* **`answer_of_owes`**, **`toList_items_of_owes`**: what is owed is handed out, and nothing more.
* **`exists_append_of_between`**: a list between two others begins like them.
-/

namespace ValueGrammar.Arrangement

/-! ## Owing a list -/

namespace Walk

variable {α : Type}

/-- What a walk hands out when it is asked for the time after the first `k`. -/
def answer : Walk α → Nat → Except WordFault (Option α)
  | w, 0 => w.next.map Prod.fst
  | w, k + 1 => do
    let (_, w) ← w.next
    w.answer k

/-- A walk owes a list if it hands out its elements one after another and then is at its end. -/
def Owes : Walk α → List α → Prop
  | w, [] => w.upcoming = none
  | w, a :: rest => ∃ after : Walk α, w.next = .ok (some a, after) ∧ after.Owes rest

/-- **What is owed is handed out**, and after that there is no answer any more. -/
theorem answer_of_owes : ∀ {w : Walk α} {l : List α}, w.Owes l → ∀ k, w.answer k = .ok l[k]?
  | w, [], h, 0 => by
    rw [answer, next_of_none h]
    rfl
  | w, [], h, k + 1 => by
    rw [answer, next_of_none h]
    exact answer_of_owes h k
  | w, a :: rest, ⟨after, hn, _⟩, 0 => by
    rw [answer, hn]
    rfl
  | w, a :: rest, ⟨after, hn, hrest⟩, k + 1 => by
    rw [answer, hn, List.getElem?_cons_succ]
    exact answer_of_owes hrest k

/-- What a walk owes starts with the element that it hands out next. -/
theorem head?_of_owes {w : Walk α} : ∀ {l : List α}, w.Owes l → l.head? = w.upcoming
  | [], h => h.symm
  | _ :: _, ⟨_, hn, _⟩ => fst_of_next hn

theorem toList_items_of_owes : ∀ {l : List α} {w : Walk α} {bound : Nat}, w.Owes l →
    l.length ≤ bound → (w.items bound).toList = l
  | [], w, 0, _, _ => rfl
  | [], w, bound + 1, h, _ => by
    rw [items, next_of_none h]
    rfl
  | a :: rest, w, bound + 1, ⟨after, hn, hrest⟩, hb => by
    rw [items, hn, Items.toList_cons, toList_items_of_owes hrest (Nat.le_of_succ_le_succ hb)]

end Walk

/-! ## Successions -/

section Succession

variable {α : Type}

/-- A successor function gives the next of the valid elements in the order `lt`, and nothing after
the last. It has no fault on any of them. -/
structure Succession (lt : α → α → Prop) (valid : α → Prop)
    (successor? : α → Except WordFault (Option α)) : Prop where
  answers : ∀ {a}, valid a → ∃ next?, successor? a = .ok next?
  valid_next : ∀ {a b}, valid a → successor? a = .ok (some b) → valid b
  lt_next : ∀ {a b}, valid a → successor? a = .ok (some b) → lt a b
  not_between : ∀ {a b}, valid a → successor? a = .ok (some b) →
    ∀ c, valid c → lt a c → ¬ lt c b
  last : ∀ {a}, valid a → successor? a = .ok none → ∀ c, valid c → ¬ lt a c

variable {lt : α → α → Prop} {valid : α → Prop}
  {successor? : α → Except WordFault (Option α)} {before after : List α} {a first : α}

/-- In a sorted list of all valid elements, what follows an element is its successor. -/
theorem successor?_of_sorted (h : Succession lt valid successor?)
    (hasymm : ∀ a b, lt a b → ¬ lt b a) (hs : (before ++ a :: after).Pairwise lt)
    (hm : ∀ c, c ∈ before ++ a :: after ↔ valid c) : successor? a = .ok after.head? := by
  have ha : valid a := (hm a).mp (by simp)
  obtain ⟨-, haft, hbef⟩ := List.pairwise_append.mp hs
  obtain ⟨hlt, haft⟩ := List.pairwise_cons.mp haft
  -- a valid element larger than `a` comes after it
  have larger : ∀ b, valid b → lt a b → b ∈ after := by
    intro b hv hab
    rcases List.mem_append.mp ((hm b).mpr hv) with hb | hb
    · exact absurd (hbef b hb a List.mem_cons_self) (hasymm _ _ hab)
    · rcases List.mem_cons.mp hb with rfl | hb
      · exact absurd hab (hasymm _ _ hab)
      · exact hb
  obtain ⟨next?, hn⟩ := h.answers ha
  rw [hn]
  cases next? with
  | none =>
    cases after with
    | nil => rfl
    | cons b after =>
      have hv : valid b := (hm b).mp (by simp)
      exact absurd (hlt b List.mem_cons_self) (h.last ha hn b hv)
  | some b =>
    have hmem := larger b (h.valid_next ha hn) (h.lt_next ha hn)
    cases after with
    | nil => exact absurd hmem List.not_mem_nil
    | cons c after =>
      rcases List.mem_cons.mp hmem with rfl | hin
      · rfl
      · have hv : valid c := (hm c).mp (by simp)
        have hcb := (List.pairwise_cons.mp haft).1 b hin
        exact absurd hcb (h.not_between ha hn c hv (hlt c List.mem_cons_self))

theorem owes_of_suffix (h : Succession lt valid successor?)
    (hasymm : ∀ a b, lt a b → ¬ lt b a) : ∀ (after before : List α) (a : α),
      (before ++ a :: after).Pairwise lt → (∀ c, c ∈ before ++ a :: after ↔ valid c) →
      (Walk.mk successor? (some a)).Owes (a :: after)
  | [], _, _, hs, hm => ⟨_, Walk.next_of_some rfl (successor?_of_sorted h hasymm hs hm), rfl⟩
  | b :: after, before, a, hs, hm => by
    refine ⟨_, Walk.next_of_some rfl (successor?_of_sorted h hasymm hs hm), ?_⟩
    rw [List.append_cons] at hs hm
    exact owes_of_suffix h hasymm after (before ++ [a]) b hs hm

/-- **A walk from the first element of a sorted list owes the whole list.** -/
theorem owes_of_succession (h : Succession lt valid successor?)
    (hasymm : ∀ a b, lt a b → ¬ lt b a) {sorted : List α} (hs : sorted.Pairwise lt)
    (hm : ∀ c, c ∈ sorted ↔ valid c) (hv : valid first) (hf : ∀ c, valid c → ¬ lt c first) :
    (Walk.mk successor? (some first)).Owes sorted := by
  obtain ⟨before, after, rfl⟩ := List.append_of_mem ((hm first).mpr hv)
  cases before with
  | nil => exact owes_of_suffix h hasymm after [] first hs hm
  | cons b before =>
    have hlt : lt b first := (List.pairwise_cons.mp hs).1 first (by simp)
    exact absurd hlt (hf b ((hm b).mp (by simp)))

end Succession

/-! ## Searching from the end -/

section Search

variable {p : Nat → Bool} {first i : Nat}

/-- A search from the end finds the last place with a property. -/
theorem last_of_find?_eq_some : ∀ {count : Nat},
    (List.range' first count).reverse.find? p = some i →
      (first ≤ i ∧ i < first + count) ∧ p i = true ∧
        ∀ j, i < j → j < first + count → p j = false
  | 0, h => by cases h
  | count + 1, h => by
    rw [List.range'_1_concat, List.reverse_concat, List.find?_cons] at h
    split at h
    · next hp =>
      cases h
      exact ⟨⟨by omega, by omega⟩, hp, fun j hij hj => by omega⟩
    · next hp =>
      obtain ⟨⟨hfirst, hlast⟩, hi, hafter⟩ := last_of_find?_eq_some h
      refine ⟨⟨hfirst, by omega⟩, hi, fun j hij hj => ?_⟩
      by_cases hend : j = first + count
      · rw [hend]
        exact hp
      · exact hafter j hij (by omega)

theorem forall_of_find?_eq_none {count : Nat}
    (h : (List.range' first count).reverse.find? p = none) :
    ∀ j, first ≤ j → j < first + count → p j = false := by
  intro j hfirst hlast
  have hmem : j ∈ (List.range' first count).reverse :=
    List.mem_reverse.mpr (List.mem_range'_1.mpr ⟨hfirst, hlast⟩)
  exact eq_false_of_ne_true (List.find?_eq_none.mp h j hmem)

end Search

/-! ## Cutting a list at a place -/

theorem length_cut (before rest : List Nat) (a : Nat) :
    (before ++ a :: rest).length = before.length + 1 + rest.length := by
  rw [List.length_append, List.length_cons]
  omega

/-- A list is cut at each of its places. -/
theorem exists_cut {l : List Nat} {i : Nat} (h : i < l.length) :
    ∃ before a after, l = before ++ a :: after ∧ before.length = i := by
  refine ⟨l.take i, l[i], l.drop (i + 1), ?_, List.length_take_of_le h.le⟩
  rw [← List.drop_eq_getElem_cons h, List.take_append_drop]

/-! ## Between two lists -/

/-- **A list between two others begins like them.** -/
theorem exists_append_of_between : ∀ {before l m t : List Nat}, before ++ l < t →
    t < before ++ m → ∃ rest, t = before ++ rest ∧ l < rest ∧ rest < m
  | [], _, _, t, hl, hm => ⟨t, rfl, hl, hm⟩
  | _ :: _, _, _, [], hl, _ => absurd hl (List.not_lt_nil _)
  | a :: before, l, m, c :: t, hl, hm => by
    rw [List.cons_append, List.cons_lt_cons_iff] at hl hm
    obtain ⟨rfl, hl, hm⟩ : a = c ∧ before ++ l < t ∧ t < before ++ m := by
      rcases hl with hac | ⟨rfl, hl⟩ <;> rcases hm with hca | ⟨hca, hm⟩
      · exact absurd hac (Nat.lt_asymm hca)
      · exact absurd hca.symm (Nat.ne_of_lt hac)
      · exact absurd hca (Nat.lt_irrefl _)
      · exact ⟨rfl, hl, hm⟩
    obtain ⟨rest, rfl, hlrest, hrestm⟩ := exists_append_of_between hl hm
    exact ⟨rest, rfl, hlrest, hrestm⟩

end ValueGrammar.Arrangement
