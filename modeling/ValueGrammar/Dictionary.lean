/-!
# Dictionaries

The ordered maps that the symbol table, the type table and JSON objects are kept in (`BTreeMap`).

A `Dictionary α` maps texts to values. Its entries stand in strictly increasing order of their
keys (by code point), so a dictionary has one representation and its listing order is part of it.

Headlines:
* **`get?_insert`**: inserting changes the value at one key and at no other.
* **`ext_get?`**: dictionaries that agree at every key are equal.
* **`mem_keys_iff`**, **`pairwise_keys`**: the keys that are listed, and their order.
-/

namespace ValueGrammar

/-- A finite map from texts, its keys strictly increasing. -/
structure Dictionary (α : Type) where
  entries : List (String × α)
  sorted : entries.Pairwise fun a b => a.1 < b.1

namespace Dictionary

variable {α β : Type}

instance [DecidableEq α] : DecidableEq (Dictionary α) := fun a b =>
  if h : a.entries = b.entries then
    isTrue (by cases a; cases b; cases h; rfl)
  else
    isFalse fun e => h (e ▸ rfl)

/-! ## Entries -/

/-- The value that the first entry with a given key holds. -/
def find? (key : String) : List (String × α) → Option α
  | [] => none
  | (k, v) :: rest => if k = key then some v else find? key rest

/-- Puts an entry in its place among ordered ones, over the one with the same key. -/
def place (key : String) (value : α) : List (String × α) → List (String × α)
  | [] => [(key, value)]
  | (k, v) :: rest =>
    if key < k then (key, value) :: (k, v) :: rest
    else if k = key then (key, value) :: rest
    else (k, v) :: place key value rest

theorem mem_place {key : String} {value : α} {e : String × α} :
    ∀ {l : List (String × α)}, e ∈ place key value l → e = (key, value) ∨ e ∈ l
  | [], h => .inl (by simpa [place] using h)
  | (k, v) :: rest, h => by
    unfold place at h
    split at h
    · simpa using h
    · split at h
      · rcases List.mem_cons.1 h with h | h
        · exact .inl h
        · exact .inr (List.mem_cons_of_mem _ h)
      · rcases List.mem_cons.1 h with h | h
        · exact .inr (h ▸ List.mem_cons_self)
        · exact (mem_place h).imp_right (List.mem_cons_of_mem _)

theorem sorted_place (key : String) (value : α) :
    ∀ {l : List (String × α)}, l.Pairwise (fun a b => a.1 < b.1) →
      (place key value l).Pairwise fun a b => a.1 < b.1
  | [], _ => by simp [place]
  | (k, v) :: rest, h => by
    rw [List.pairwise_cons] at h
    unfold place
    split
    · next hlt =>
      refine List.pairwise_cons.2 ⟨fun e he => ?_, List.pairwise_cons.2 h⟩
      rcases List.mem_cons.1 he with rfl | he
      · exact hlt
      · exact String.lt_trans hlt (h.1 e he)
    · next hlt =>
      split
      · next heq => exact List.pairwise_cons.2 ⟨fun e he => heq ▸ h.1 e he, h.2⟩
      · next hne =>
        refine List.pairwise_cons.2 ⟨fun e he => ?_, sorted_place key value h.2⟩
        rcases mem_place he with rfl | he
        · exact Std.lt_of_le_of_ne (String.not_lt.1 hlt) hne
        · exact h.1 e he

theorem find?_place_self (key : String) (value : α) :
    ∀ l : List (String × α), find? key (place key value l) = some value
  | [] => by simp [place, find?]
  | (k, v) :: rest => by
    unfold place
    split
    · simp [find?]
    · split
      · simp [find?]
      · next hne => simp [find?, hne, find?_place_self key value rest]

theorem find?_place_of_ne {key other : String} (value : α) (h : key ≠ other) :
    ∀ l : List (String × α), find? other (place key value l) = find? other l
  | [] => by simp [place, find?, h]
  | (k, v) :: rest => by
    unfold place
    split
    · simp [find?, h]
    · split
      · next heq => subst heq; simp [find?, h]
      · simp only [find?, find?_place_of_ne value h rest]

/-! ## Operations -/

/-- No entries. -/
def empty : Dictionary α := ⟨[], .nil⟩

instance : Inhabited (Dictionary α) := ⟨empty⟩

/-- The value at a key. -/
def get? (d : Dictionary α) (key : String) : Option α := find? key d.entries

/-- Sets the value at a key. -/
def insert (d : Dictionary α) (key : String) (value : α) : Dictionary α :=
  ⟨place key value d.entries, sorted_place key value d.sorted⟩

/-- The number of keys. -/
def size (d : Dictionary α) : Nat := d.entries.length

/-- Whether there is no entry. -/
def isEmpty (d : Dictionary α) : Bool := d.entries.isEmpty

/-- The keys, in increasing order. -/
def keys (d : Dictionary α) : List String := d.entries.map (·.1)

/-- Inserts entries one after another; of equal keys the last one stays. -/
def ofList (entries : List (String × α)) : Dictionary α :=
  entries.foldl (fun d e => d.insert e.1 e.2) empty

@[simp] theorem get?_empty (key : String) : (empty : Dictionary α).get? key = none := rfl

/-- Inserting changes the value at one key and at no other. -/
theorem get?_insert (d : Dictionary α) (key other : String) (value : α) :
    (d.insert key value).get? other = if key = other then some value else d.get? other := by
  by_cases h : key = other
  · subst h; simp [get?, insert, find?_place_self]
  · simp [get?, insert, find?_place_of_ne value h, h]

/-! ## Equality -/

theorem mem_of_find? {key : String} {value : α} :
    ∀ {l : List (String × α)}, find? key l = some value → (key, value) ∈ l
  | [], h => by simp [find?] at h
  | (k, v) :: rest, h => by
    unfold find? at h
    split at h
    · next heq => cases h; subst heq; exact List.mem_cons_self
    · exact List.mem_cons_of_mem _ (mem_of_find? h)

theorem find?_eq_none_of_lt {key : String} :
    ∀ {l : List (String × α)}, (∀ e ∈ l, key < e.1) → find? key l = none
  | [], _ => rfl
  | (k, v) :: rest, h => by
    have hk : key < k := h (k, v) List.mem_cons_self
    have hne : k ≠ key := fun e => String.lt_irrefl key (e ▸ hk)
    simp [find?, hne, find?_eq_none_of_lt fun e he => h e (List.mem_cons_of_mem _ he)]

theorem eq_of_find?_eq : ∀ {l m : List (String × α)},
    l.Pairwise (fun a b => a.1 < b.1) → m.Pairwise (fun a b => a.1 < b.1) →
      (∀ key, find? key l = find? key m) → l = m
  | [], [], _, _, _ => rfl
  | [], (k, v) :: m, _, _, h => by simpa [find?] using h k
  | (k, v) :: l, [], _, _, h => by simpa [find?] using h k
  | (k, v) :: l, (k', v') :: m, hl, hm, h => by
    rw [List.pairwise_cons] at hl hm
    have hkk : k = k' := by
      refine Decidable.byContradiction fun hne => ?_
      have h1 : (k, v) ∈ (k', v') :: m := mem_of_find? ((h k).symm.trans (by simp [find?]))
      have h2 : (k', v') ∈ (k, v) :: l := mem_of_find? ((h k').trans (by simp [find?]))
      have h1' := (List.mem_cons.1 h1).resolve_left fun e => hne (congrArg Prod.fst e)
      have h2' := (List.mem_cons.1 h2).resolve_left fun e => hne (congrArg Prod.fst e).symm
      exact String.lt_irrefl k (String.lt_trans (hl.1 _ h2') (hm.1 _ h1'))
    subst hkk
    have hv : v = v' := by simpa [find?] using h k
    subst hv
    congr 1
    refine eq_of_find?_eq hl.2 hm.2 fun key => ?_
    by_cases hk : k = key
    · subst hk
      rw [find?_eq_none_of_lt hl.1, find?_eq_none_of_lt hm.1]
    · simpa [find?, hk] using h key

/-- Dictionaries that agree at every key are equal. -/
theorem ext_get? {d e : Dictionary α} (h : ∀ key, d.get? key = e.get? key) : d = e := by
  cases d; cases e
  congr
  exact eq_of_find?_eq ‹_› ‹_› h

/-! ## Keys -/

theorem find?_of_mem_map {key : String} :
    ∀ {l : List (String × α)}, key ∈ l.map Prod.fst → ∃ value, find? key l = some value
  | (k, v) :: rest, h => by
    unfold find?
    split
    · exact ⟨v, rfl⟩
    · next hne =>
      exact find?_of_mem_map ((List.mem_cons.1 h).resolve_left fun e => hne e.symm)

/-- The keys are those that have a value. -/
theorem mem_keys_iff {d : Dictionary α} {key : String} :
    key ∈ d.keys ↔ ∃ value, d.get? key = some value :=
  ⟨find?_of_mem_map, fun ⟨_, h⟩ => List.mem_map_of_mem (f := Prod.fst) (mem_of_find? h)⟩

/-- Inserting adds its key to the others. -/
theorem mem_keys_insert {d : Dictionary α} {key other : String} {value : α} :
    other ∈ (d.insert key value).keys ↔ key = other ∨ other ∈ d.keys := by
  rw [mem_keys_iff, mem_keys_iff, get?_insert]
  by_cases h : key = other <;> simp [h]

/-- The keys are listed in increasing order. -/
theorem pairwise_keys (d : Dictionary α) : d.keys.Pairwise (· < ·) :=
  List.pairwise_map.2 d.sorted

end Dictionary

end ValueGrammar
