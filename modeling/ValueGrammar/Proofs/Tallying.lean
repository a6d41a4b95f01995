import Mathlib.Algebra.BigOperators.Group.Multiset.Basic
import Mathlib.Algebra.GroupWithZero.Nat
import Mathlib.Data.List.Sublists
import ValueGrammar.Proofs.Logging

/-!
# Counting leaves in any order

Expressions may be collected into several tables and these merged in any order: into each other,
again and again, or each into itself. An expression reaches a table as often as there are chains of
merges, one after another, that bring it there from the table into which it was collected. A table
counts what has reached it, and is the same whatever the order in which that came.

What carries the induction over the steps is `Counts`: a table counts a multiset of expressions if
it holds, for each leaf, how often it occurs in all of them together.

Headlines:
* **`get?_merge`**: merging adds the counts.
* **`collect_eq_foldl`**: an expression is counted leaf by leaf.
* **`counts_after`**: after any steps, a table counts what has reached it.
* **`get?_after_eq_sum`**: so counts are sums over what has reached a table, and the same in any
  order of collecting, merging or listing.
-/

namespace ValueGrammar

/-! ## Leaves -/

namespace Expr

mutual

/-- The leaves of an expression, from left to right. -/
def leaves : Expr → List Leaf
  | .leaf l => [l]
  | .group body => body.leaves
  | .multiplied body _ => body.leaves
  | .combined _ operands => leavesOfEach operands

/-- The leaves of several expressions. -/
def leavesOfEach : List Expr → List Leaf
  | [] => []
  | e :: es => e.leaves ++ leavesOfEach es

end

@[simp] theorem leavesOfEach_eq_flatMap : ∀ es : List Expr, leavesOfEach es = es.flatMap leaves
  | [] => rfl
  | e :: es => by rw [leavesOfEach, leavesOfEach_eq_flatMap es, List.flatMap_cons]

end Expr

/-! ## Entries -/

/-- The entry for a count: there is none for zero. -/
def entry (n : Nat) : Option Nat := if n = 0 then none else some n

theorem merge_entry (m n : Nat) : Option.merge (· + ·) (entry m) (entry n) = entry (m + n) := by
  unfold entry
  split <;> split <;> simp_all

theorem merge_some_right (o : Option Nat) (n : Nat) :
    Option.merge (· + ·) o (some n) = some (o.getD 0 + n) := by
  cases o <;> simp

namespace Dictionary

theorem get?_foldl_add (key : String) : ∀ {l : List (String × Nat)} (d : Dictionary Nat),
    l.Pairwise (fun a b => a.1 < b.1) →
      (l.foldl (fun d entry => d.add entry.1 entry.2) d).get? key =
        Option.merge (· + ·) (d.get? key) (find? key l)
  | [], d, _ => (Option.merge_none_right).symm
  | (k, n) :: rest, d, h => by
    obtain ⟨hfirst, hrest⟩ := List.pairwise_cons.mp h
    rw [List.foldl_cons, get?_foldl_add key _ hrest, get?_add, find?]
    split
    · next hk =>
      subst hk
      rw [find?_eq_none_of_lt hfirst, Option.merge_none_right, merge_some_right]
    · rfl

theorem get?_add_one (d : Dictionary Nat) (key other : String) : (d.add key 1).get? other =
    Option.merge (· + ·) (d.get? other) (entry (if key = other then 1 else 0)) := by
  rw [get?_add]
  split
  · next h =>
    subst h
    exact (merge_some_right _ 1).symm
  · exact Option.merge_none_right.symm

/-- Merging adds the counts. -/
theorem get?_merge (d e : Dictionary Nat) (key : String) :
    (d.merge e).get? key = Option.merge (· + ·) (d.get? key) (e.get? key) :=
  get?_foldl_add key d e.sorted

end Dictionary

namespace SymbolTable

variable {t u : SymbolTable} {e : Expr} {l : Leaf}

/-- The count of a leaf, if it has an entry in its category. -/
def get? (t : SymbolTable) : Leaf → Option Nat
  | .identifier name => t.identifiers.get? name
  | .typeRef name => t.types.get? name
  | .quoted text => t.texts.get? text

/-- Tables with the same counts are equal. -/
theorem ext_get? (h : ∀ l, t.get? l = u.get? l) : t = u := by
  cases t; cases u
  congr
  · exact Dictionary.ext_get? fun name => h (.identifier name)
  · exact Dictionary.ext_get? fun name => h (.typeRef name)
  · exact Dictionary.ext_get? fun text => h (.quoted text)

theorem get?_merge (t u : SymbolTable) (l : Leaf) :
    (t.merge u).get? l = Option.merge (· + ·) (t.get? l) (u.get? l) := by
  cases l <;> exact Dictionary.get?_merge _ _ _

theorem get?_addLeaf (t : SymbolTable) (l other : Leaf) : (t.addLeaf l).get? other =
    Option.merge (· + ·) (t.get? other) (entry (if l = other then 1 else 0)) := by
  cases l with
  | identifier name =>
    cases other with
    | identifier other => simp only [addLeaf, get?, Dictionary.get?_add_one, Leaf.identifier.injEq]
    | typeRef _ | quoted _ => exact Option.merge_none_right.symm
  | typeRef name =>
    cases other with
    | typeRef other => simp only [addLeaf, get?, Dictionary.get?_add_one, Leaf.typeRef.injEq]
    | identifier _ | quoted _ => exact Option.merge_none_right.symm
  | quoted text =>
    cases other with
    | quoted other => simp only [addLeaf, get?, Dictionary.get?_add_one, Leaf.quoted.injEq]
    | identifier _ | typeRef _ => exact Option.merge_none_right.symm

/-- An expression is counted leaf by leaf. -/
theorem collect_eq_foldl (e : Expr) : ∀ t : SymbolTable, t.collect e = e.leaves.foldl addLeaf t := by
  induction e using Expr.inductionOn with
  | leaf l => exact fun t => rfl
  | group body ih => exact ih
  | multiplied body m ih => exact ih
  | combined c operands ih =>
    intro t
    rw [collect, collectAll_eq_foldl, Expr.leaves, Expr.leavesOfEach_eq_flatMap, List.foldl_flatMap]
    exact List.foldl_ext _ _ _ fun t e he => ih e he t

theorem get?_foldl_addLeaf : ∀ {ls : List Leaf} {t : SymbolTable} {n : Nat}, t.get? l = entry n →
    (ls.foldl addLeaf t).get? l = entry (n + ls.count l)
  | [], _, _, h => h
  | first :: rest, t, n, h => by
    have hfirst : (t.addLeaf first).get? l = entry (n + if first = l then 1 else 0) := by
      rw [get?_addLeaf, h, merge_entry]
    rw [List.foldl_cons, get?_foldl_addLeaf hfirst, List.count_cons, Nat.add_assoc,
      Nat.add_comm (rest.count l)]
    simp only [beq_iff_eq]

/-! ## What a table counts -/

/-- **A table counts some expressions**: it has an entry for exactly those leaves that occur in
them, with the number of times they do in all of them together. -/
def Counts (t : SymbolTable) (trees : Multiset Expr) : Prop :=
  ∀ l, t.get? l = entry (trees.map fun e => e.leaves.count l).sum

variable {counted others : Multiset Expr}

theorem counts_empty : Counts empty 0 := fun l => by cases l <;> rfl

theorem Counts.collect (h : Counts t counted) (e : Expr) : Counts (t.collect e) (counted + {e}) := by
  intro l
  rw [collect_eq_foldl, get?_foldl_addLeaf (h l), Multiset.map_add, Multiset.sum_add,
    Multiset.map_singleton, Multiset.sum_singleton]

theorem Counts.collectAll (h : Counts t counted) (es : List Expr) :
    Counts (t.collectAll es) (counted + es) := by
  induction es generalizing t counted with
  | nil => simpa [SymbolTable.collectAll] using h
  | cons e es ih =>
    have hcons : counted + ((e :: es : List Expr) : Multiset Expr) = counted + {e} + es := by
      rw [add_assoc, Multiset.singleton_add, Multiset.cons_coe]
    rw [SymbolTable.collectAll, hcons]
    exact ih (h.collect e)

theorem Counts.merge (h : Counts t counted) (h' : Counts u others) :
    Counts (t.merge u) (counted + others) := by
  intro l
  rw [get?_merge, h l, h' l, merge_entry, Multiset.map_add, Multiset.sum_add]

/-- What a table counts determines it. -/
theorem Counts.unique (h : Counts t counted) (h' : Counts u counted) : t = u :=
  ext_get? fun l => (h l).trans (h' l).symm

/-! ## Several tables -/

section Histories

variable {ι : Type}

/-- What is done to several tables: an expression is collected into one of them, or one is merged
into another or into itself. -/
inductive Step (ι : Type)
  | collected (table : ι) (e : Expr)
  | merged (table source : ι)

/-- The merges among some steps, each with its source and the table it is merged into. -/
def merges (steps : List (Step ι)) : List (ι × ι) :=
  steps.filterMap fun
    | .collected .. => none
    | .merged i j => some (j, i)

/-- Whether merges, one after another, bring what is in one table to another one. -/
def Brings : ι → ι → List (ι × ι) → Prop
  | i, k, [] => i = k
  | i, k, (source, table) :: rest => source = i ∧ Brings table k rest

theorem brings_concat {i j k m : ι} : ∀ {ms : List (ι × ι)},
    Brings i k (ms ++ [(j, m)]) ↔ m = k ∧ Brings i j ms
  | [] => by rw [List.nil_append, Brings, Brings, Brings, and_comm, eq_comm (a := j)]
  | (source, table) :: rest => by
    rw [List.cons_append, Brings, Brings, brings_concat, and_left_comm]

variable [DecidableEq ι]

instance decidableBrings : ∀ (i k : ι) (ms : List (ι × ι)), Decidable (Brings i k ms)
  | i, k, [] => inferInstanceAs (Decidable (i = k))
  | i, k, (source, table) :: rest =>
    have := decidableBrings table k rest
    inferInstanceAs (Decidable (source = i ∧ Brings table k rest))

/-- The tables after a step. -/
def stepped (tables : ι → SymbolTable) : Step ι → ι → SymbolTable
  | .collected i e => Function.update tables i ((tables i).collect e)
  | .merged i j => Function.update tables i ((tables i).merge (tables j))

/-- The tables after some steps, all of them empty before. -/
def after (steps : List (Step ι)) : ι → SymbolTable := steps.foldl stepped fun _ => empty

/-- The number of chains of merges among some steps that bring what is in one table to another one.
From a table to itself, the empty chain is one. -/
def chains (steps : List (Step ι)) (i k : ι) : Nat :=
  (merges steps).sublists.countP fun ms => Brings i k ms

/-- **What reaches a table**: each expression that is collected, once for each chain of later merges
that brings it there. -/
def arrivals : List (Step ι) → ι → Multiset Expr
  | [], _ => 0
  | .collected i e :: rest, k => Multiset.replicate (chains rest i k) e + arrivals rest k
  | .merged .. :: rest, k => arrivals rest k

/-- What a step adds to a table, given what is in all of them. -/
def gained (contents : ι → Multiset Expr) : Step ι → ι → Multiset Expr
  | .collected i e, k => if i = k then {e} else 0
  | .merged i j, k => if i = k then contents j else 0

theorem chains_collected (steps : List (Step ι)) (i k j : ι) (e : Expr) :
    chains (steps ++ [.collected j e]) i k = chains steps i k := by
  rw [chains, merges, List.filterMap_append]
  exact congrArg _ (congrArg _ (List.append_nil _))

/-- A chain ends with the last merge or does without it. -/
theorem chains_merged (steps : List (Step ι)) (i k m j : ι) :
    chains (steps ++ [.merged m j]) i k =
      chains steps i k + if m = k then chains steps i j else 0 := by
  have hmerges : merges (steps ++ [.merged m j]) = merges steps ++ [(j, m)] := by
    rw [merges, List.filterMap_append]
    rfl
  rw [chains, hmerges, List.sublists_concat, List.countP_append, List.countP_map]
  congr 1
  split
  · next h => exact List.countP_congr fun ms _ => by simp [brings_concat, h]
  · next h => exact List.countP_eq_zero.mpr fun ms _ => by simp [brings_concat, h]

/-- A last step adds to what has reached a table what it adds to the table. -/
theorem arrivals_concat (step : Step ι) (k : ι) : ∀ steps : List (Step ι),
    arrivals (steps ++ [step]) k = arrivals steps k + gained (arrivals steps) step k
  | [] => by
    cases step with
    | collected i e =>
      simp only [List.nil_append, arrivals, gained, add_zero, zero_add]
      by_cases h : i = k <;> simp [chains, merges, Brings, h]
    | merged i j => simp only [List.nil_append, arrivals, gained, add_zero, ite_self]
  | .collected i e :: rest => by
    rw [List.cons_append, arrivals, arrivals_concat step k rest]
    cases step with
    | collected j d => rw [chains_collected, arrivals, gained, gained, add_assoc]
    | merged m j =>
      -- the chains to the source go on to the table, beside those that were there
      rw [chains_merged, Multiset.replicate_add, arrivals, gained, gained, arrivals]
      split
      · exact add_add_add_comm _ _ _ _
      · simp only [Multiset.replicate_zero, add_zero]
  | .merged i j :: rest => by
    rw [List.cons_append, arrivals, arrivals_concat step k rest]
    cases step <;> rfl

theorem counts_update {tables : ι → SymbolTable} {contents : ι → Multiset Expr}
    (h : ∀ k, Counts (tables k) (contents k)) {i : ι} {more : Multiset Expr}
    (ht : Counts t (contents i + more)) (k : ι) :
    Counts (Function.update tables i t k) (contents k + if i = k then more else 0) := by
  by_cases hk : i = k
  · subst hk
    rw [Function.update_self, if_pos rfl]
    exact ht
  · rw [Function.update_of_ne (Ne.symm hk), if_neg hk, add_zero]
    exact h k

/-- What tables count, and what a step adds to it, is what they count after the step. -/
theorem counts_stepped {tables : ι → SymbolTable} {contents : ι → Multiset Expr}
    (h : ∀ k, Counts (tables k) (contents k)) (step : Step ι) (k : ι) :
    Counts (stepped tables step k) (contents k + gained contents step k) := by
  cases step with
  | collected i e => exact counts_update h ((h i).collect e) k
  | merged i j => exact counts_update h ((h i).merge (h j)) k

theorem after_concat (steps : List (Step ι)) (step : Step ι) :
    after (steps ++ [step]) = stepped (after steps) step := List.foldl_concat ..

/-- **After any steps, a table counts what has reached it.** -/
theorem counts_after (steps : List (Step ι)) : ∀ k, Counts (after steps k) (arrivals steps k) := by
  -- on the last step, while chains are counted from the first one on
  induction steps using List.reverseRecOn with
  | nil => exact fun _ => counts_empty
  | append_singleton steps step ih =>
    intro k
    rw [after_concat, arrivals_concat]
    exact counts_stepped ih step k

end Histories

/-! ## Plans -/

/-- A way to count expressions: one after another, or in two parts whose tables are merged. -/
inductive Plan
  | collected (es : List Expr)
  | merged (a b : Plan)

/-- The table that a plan ends with. -/
def Plan.table : Plan → SymbolTable
  | .collected es => empty.collectAll es
  | .merged a b => a.table.merge b.table

/-- The expressions that a plan counts. -/
def Plan.trees : Plan → Multiset Expr
  | .collected es => es
  | .merged a b => a.trees + b.trees

theorem counts_table : ∀ p : Plan, Counts p.table p.trees
  | .collected es => by
    rw [Plan.trees, ← zero_add (es : Multiset Expr)]
    exact counts_empty.collectAll es
  | .merged a b => (counts_table a).merge (counts_table b)

/-- Plans for the same expressions end with the same table. -/
theorem table_congr {a b : Plan} (h : a.trees = b.trees) : a.table = b.table :=
  (counts_table a).unique (h ▸ counts_table b)

/-! ## Listed expressions -/

/-- The leaves of expressions that can all be read are counted. -/
theorem result_symbols {expressions : List String}
    (h : ∀ s ∈ expressions, ∃ e, Expr.parse s = .ok e) :
    (Action.symbols expressions).result = .ok
      ((Plan.collected (expressions.map Expr.parseOrUnknown)).table.toJson.render .pretty) := by
  rw [Action.result_of_gives (Action.gives_symbols expressions), Action.mapM_parse h]
  rfl

/-- **Counting is linear, and the same in any order.**

After any steps on any tables, a table has an entry for exactly those leaves that occur in what has
reached it: by collecting, or along any chain of merges, each as often as there are chains. The
count is the sum of the occurrences. Merging leaves its source as it is. So tables are equal that
the same expressions have reached, in whatever order; also if they were collected one by one, or in
parts that were merged in any order and grouping. And of a list of expressions that can all be read,
every reordering gives the same output: the table of the counts in all of them, laid out as JSON. -/
theorem get?_after_eq_sum {ι : Type} [DecidableEq ι] (steps : List (Step ι)) :
    (∀ i l, (after steps i).get? l =
      entry ((arrivals steps i).map fun e => e.leaves.count l).sum) ∧
    (∀ i j, j ≠ i → after (steps ++ [.merged i j]) j = after steps j) ∧
    (∀ (others : List (Step ι)) i j, arrivals steps i = arrivals others j →
      after steps i = after others j) ∧
    (∀ a b : Plan, a.trees = b.trees → a.table = b.table) ∧
    ∀ expressions reordered : List String, expressions.Perm reordered →
      (∀ s ∈ expressions, ∃ e, Expr.parse s = .ok e) →
        ∃ table : SymbolTable,
          (∀ l, table.get? l =
            entry (expressions.map fun s => (Expr.parseOrUnknown s).leaves.count l).sum) ∧
          (Action.symbols expressions).result = .ok (table.toJson.render .pretty) ∧
          (Action.symbols reordered).result = .ok (table.toJson.render .pretty) := by
  refine ⟨counts_after steps, ?_, ?_, fun a b => table_congr, ?_⟩
  · intro i j hij
    rw [after_concat, stepped, Function.update_of_ne hij]
  · intro others i j heq
    exact (counts_after steps i).unique (heq ▸ counts_after others j)
  · intro expressions reordered hperm hparse
    have htable : (Plan.collected (expressions.map Expr.parseOrUnknown)).table =
        (Plan.collected (reordered.map Expr.parseOrUnknown)).table :=
      table_congr (Multiset.coe_eq_coe.mpr (hperm.map _))
    refine ⟨_, fun l => ?_, result_symbols hparse, ?_⟩
    · have hcounts := counts_table (.collected (expressions.map Expr.parseOrUnknown)) l
      rw [Plan.trees, Multiset.map_coe, Multiset.sum_coe, List.map_map] at hcounts
      exact hcounts
    · rw [htable]
      exact result_symbols fun s hs => hparse s (hperm.mem_iff.mpr hs)

/-- A table that is merged into another one comes back with it, after the other one was doubled. Two
plans for the same three expressions, and two lists of the same inputs. -/
theorem get?_after_eq_sum_doubled :
    let pair : Expr := .combined .allOf [.leaf (.identifier "a"), .group (.leaf (.identifier "a"))]
    let type : Expr := .multiplied (.leaf (.typeRef "a")) .optional
    let steps : List (Step Bool) := [.collected false pair, .merged true false,
      .collected true type, .merged true true, .merged false true]
    arrivals steps false = {pair, pair, pair, type, type} ∧
      (after steps false).get? (.identifier "a") = some 6 ∧
      (after steps false).get? (.typeRef "a") = some 2 ∧
      (after steps false).get? (.quoted "a") = none ∧
      after (steps ++ [.merged false true]) true = after steps true ∧
      after steps false =
        after [.collected true type, .collected true pair, .merged true true, .collected true pair]
          true ∧
      (Plan.merged (.collected [pair]) (.collected [type, pair])).table =
        (Plan.collected [pair, pair, type]).table ∧
      ∃ table : SymbolTable, table.get? (.identifier "a") = some 2 ∧
        table.get? (.typeRef "a") = some 1 ∧
        (Action.symbols ["a && [a]", "<a>?"]).result = .ok (table.toJson.render .pretty) ∧
        (Action.symbols ["<a>?", "a && [a]"]).result = .ok (table.toJson.render .pretty) := by
  intro pair type steps
  obtain ⟨hsum, hsource, harrivals, hplans, hsymbols⟩ := get?_after_eq_sum steps
  have hparse : ∀ s ∈ ["a && [a]", "<a>?"], ∃ e, Expr.parse s = .ok e :=
    List.forall_mem_cons.mpr ⟨⟨pair, by decide +kernel⟩,
      List.forall_mem_singleton.mpr ⟨type, by decide +kernel⟩⟩
  obtain ⟨table, hcounts, hlisted, hreordered⟩ :=
    hsymbols ["a && [a]", "<a>?"] _ (List.Perm.swap _ _ _) hparse
  exact ⟨by decide +kernel, (hsum _ _).trans (by decide +kernel),
    (hsum _ _).trans (by decide +kernel), (hsum _ _).trans (by decide +kernel),
    hsource _ _ (by decide), harrivals _ _ _ (by decide +kernel), hplans _ _ (by decide +kernel),
    table, (hcounts _).trans (by decide +kernel), (hcounts _).trans (by decide +kernel),
    hlisted, hreordered⟩

end SymbolTable

end ValueGrammar
