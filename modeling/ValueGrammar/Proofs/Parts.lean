import ValueGrammar.Expr.Interchange
import ValueGrammar.Proofs.RoundTrip

/-!
# The parts of an expression

An expression is a part of itself, and so are the parts of its children. What holds `Everywhere` in
an expression holds of all its parts. Expressions that are read or decoded are well formed
everywhere: their counts are in order, and their combinators join two or more operands.

Headlines:
* **`everywhere_iff`**: what holds everywhere holds here and everywhere in the children.
* **`wellFormed_of_parse`**, **`wellFormed_of_ofJson`**: what is read or decoded is well formed.
-/

namespace ValueGrammar

namespace Expr

/-! ## Parts -/

/-- An expression is a part of itself, and so are the parts of its children. -/
inductive PartOf : Expr → Expr → Prop
  | refl (e : Expr) : PartOf e e
  | child {d c e : Expr} (hc : c ∈ e.children) (h : PartOf d c) : PartOf d e

/-- Whether something holds of every part of an expression. -/
def Everywhere (P : Expr → Prop) (e : Expr) : Prop := ∀ d, PartOf d e → P d

variable {P : Expr → Prop} {e body : Expr} {m : Multiplier} {c : Combinator}
  {operands : List Expr}

/-- What holds everywhere holds here and everywhere in the children. -/
theorem everywhere_iff : Everywhere P e ↔ P e ∧ ∀ c ∈ e.children, Everywhere P c := by
  constructor
  · intro h
    exact ⟨h e (.refl e), fun c hc d hd => h d (.child hc hd)⟩
  · rintro ⟨he, hchildren⟩ d hd
    cases hd with
    | refl => exact he
    | child hc hd => exact hchildren _ hc d hd

theorem PartOf.trans {c d e : Expr} (hc : PartOf c d) (hd : PartOf d e) : PartOf c e := by
  induction hd with
  | refl => exact hc
  | child hb _ ih => exact .child hb ih

/-- What holds everywhere in an expression holds everywhere in its parts. -/
theorem Everywhere.of_part {d : Expr} (h : Everywhere P e) (hd : PartOf d e) : Everywhere P d :=
  fun c hc => h c (hc.trans hd)

theorem everywhere_leaf {l : Leaf} : Everywhere P (.leaf l) ↔ P (.leaf l) := by
  rw [everywhere_iff, and_iff_left]
  exact List.forall_mem_nil _

theorem everywhere_group : Everywhere P (.group body) ↔ P (.group body) ∧ Everywhere P body := by
  rw [everywhere_iff, children, List.forall_mem_singleton]

theorem everywhere_multiplied :
    Everywhere P (.multiplied body m) ↔ P (.multiplied body m) ∧ Everywhere P body := by
  rw [everywhere_iff, children, List.forall_mem_singleton]

theorem everywhere_combined : Everywhere P (.combined c operands) ↔
    P (.combined c operands) ∧ ∀ o ∈ operands, Everywhere P o :=
  everywhere_iff

theorem everywhere_pair {a b : Expr} : Everywhere P (.combined c [a, b]) ↔
    P (.combined c [a, b]) ∧ Everywhere P a ∧ Everywhere P b := by
  rw [everywhere_combined, List.forall_mem_cons, List.forall_mem_singleton]

/-! ## Well-formed expressions -/

/-- Whether an expression's own counts are in order, and its own operands are two or more. -/
def IsWellMade : Expr → Prop
  | .leaf _ | .group _ => True
  | .multiplied _ m => m.Ordered
  | .combined _ operands => 2 ≤ operands.length

/-- Whether all counts in an expression are in order and all combinators join two or more
operands. -/
abbrev WellFormed : Expr → Prop := Everywhere IsWellMade

end Expr

open ValueGrammar.Expr

theorem wellFormed_of_shaped {IsBody : Expr → Prop} {e : Expr} (h : Shaped IsBody e) :
    e.WellFormed := by
  induction h with
  | leaf _ => exact everywhere_leaf.mpr trivial
  | group _ ih => exact everywhere_group.mpr ⟨trivial, ih⟩
  | multiplied _ _ hm ih => exact everywhere_multiplied.mpr ⟨hm, ih⟩
  | combined h2 _ _ ih => exact everywhere_combined.mpr ⟨h2, ih⟩

/-- What is read is well formed. -/
theorem wellFormed_of_parse {input : String} {e : Expr} (h : Expr.parse input = .ok e) :
    e.WellFormed :=
  wellFormed_of_shaped (canonical_of_parse h)

/-! ## Decoded expressions -/

section Decoding

variable {ε α β : Type}

/-- A computation succeeds if its first part does and the second one on its answer. -/
theorem bind_eq_ok_iff {x : Except ε α} {f : α → Except ε β} {b : β} :
    (x >>= f) = .ok b ↔ ∃ a, x = .ok a ∧ f a = .ok b := by
  cases x with
  | error e => exact ⟨by rintro ⟨⟩, by rintro ⟨a, ⟨⟩, -⟩⟩
  | ok a =>
    constructor
    · exact fun h => ⟨a, rfl, h⟩
    · rintro ⟨_, ⟨⟩, h⟩
      exact h

theorem pure_eq_ok_iff {a b : α} : (pure a : Except ε α) = .ok b ↔ b = a := by
  constructor
  · rintro ⟨⟩
    rfl
  · rintro rfl
    rfl

theorem bind_pure_eq_ok_iff {x : Except ε α} {f : α → β} {b : β} :
    (x >>= fun a => pure (f a)) = .ok b ↔ ∃ a, x = .ok a ∧ b = f a := by
  simp only [bind_eq_ok_iff, pure_eq_ok_iff]

end Decoding

theorem ordered_of_boundsOf {payload : Json} {m : Multiplier} (h : boundsOf payload = .ok m) :
    m.Ordered := by
  obtain ⟨least, -, h⟩ := bind_eq_ok_iff.mp h
  obtain ⟨most, -, h⟩ := bind_eq_ok_iff.mp h
  split at h
  · cases h
  · rename_i hle
    obtain rfl := pure_eq_ok_iff.mp h
    exact UInt32.not_lt.mp hle

mutual

/-- What is decoded is well formed. -/
theorem wellFormed_of_ofJson : ∀ {v : Json} {e : Expr}, ofJson v = .ok e → e.WellFormed
  | .object [(name, payload)], e, h => by
    rw [ofJson] at h
    cases ht : Tag.ofName? name with
    | none =>
      rw [ht] at h
      cases h
    | some tag =>
      rw [ht] at h
      cases tag with
      | identifier | typeRef | quoted =>
        obtain ⟨text, -, rfl⟩ := bind_pure_eq_ok_iff.mp h
        exact everywhere_leaf.mpr trivial
      | optional | zeroOrMore | oneOrMore | commaSeparated =>
        obtain ⟨body, hbody, rfl⟩ := bind_pure_eq_ok_iff.mp h
        exact everywhere_multiplied.mpr ⟨trivial, wellFormed_of_ofJson hbody⟩
      | counted =>
        obtain ⟨m, hm, h⟩ := bind_eq_ok_iff.mp h
        obtain ⟨body, hbody, rfl⟩ := bind_pure_eq_ok_iff.mp h
        exact everywhere_multiplied.mpr ⟨ordered_of_boundsOf hm, wellFormed_of_bodyOf hbody⟩
      | group =>
        obtain ⟨body, hbody, rfl⟩ := bind_pure_eq_ok_iff.mp h
        exact everywhere_group.mpr ⟨trivial, wellFormed_of_ofJson hbody⟩
      | combined c =>
        obtain ⟨operands, hoperands, rfl⟩ := bind_pure_eq_ok_iff.mp h
        exact everywhere_combined.mpr (wellFormed_of_operandsOf hoperands)
  | .object [], _, h => by cases h
  | .object (_ :: _ :: _), _, h => by cases h
  | .null, _, h | .bool _, _, h | .natural _, _, h | .decimal _, _, h | .string _, _, h
  | .array _, _, h => by cases h

theorem wellFormed_of_bodyOf : ∀ {v : Json} {e : Expr}, bodyOf v = .ok e → e.WellFormed
  | .object members, _, h => @wellFormed_of_bodyAmong members _ h
  | .null, _, h | .bool _, _, h | .natural _, _, h | .decimal _, _, h | .string _, _, h
  | .array _, _, h => by cases h

theorem wellFormed_of_bodyAmong : ∀ {members : List (String × Json)} {e : Expr},
    bodyAmong members = .ok e → e.WellFormed
  | [], _, h => by cases h
  | (key, value) :: rest, e, h => by
    rw [bodyAmong] at h
    split at h
    · exact wellFormed_of_ofJson h
    · exact wellFormed_of_bodyAmong h

theorem wellFormed_of_operandsOf : ∀ {c : Combinator} {v : Json} {es : List Expr},
    operandsOf c v = .ok es → 2 ≤ es.length ∧ ∀ e ∈ es, e.WellFormed
  | c, .array items, es, h => by
    rw [operandsOf] at h
    split at h
    · cases h
    · rename_i h2
      obtain ⟨hlen, hes⟩ := wellFormed_of_ofJsonList h
      exact ⟨by omega, hes⟩
  | _, .null, _, h | _, .bool _, _, h | _, .natural _, _, h | _, .decimal _, _, h
  | _, .string _, _, h | _, .object _, _, h => by cases h

theorem wellFormed_of_ofJsonList : ∀ {vs : List Json} {es : List Expr},
    ofJsonList vs = .ok es → es.length = vs.length ∧ ∀ e ∈ es, e.WellFormed
  | [], es, h => by
    cases h
    exact ⟨rfl, List.forall_mem_nil _⟩
  | v :: vs, es, h => by
    obtain ⟨e, he, h⟩ := bind_eq_ok_iff.mp h
    obtain ⟨es, hes, h⟩ := bind_eq_ok_iff.mp h
    obtain rfl := pure_eq_ok_iff.mp h
    obtain ⟨hlen, hall⟩ := wellFormed_of_ofJsonList hes
    exact ⟨by simp [hlen], List.forall_mem_cons.mpr ⟨wellFormed_of_ofJson he, hall⟩⟩

end

end ValueGrammar
