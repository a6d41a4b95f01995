import ValueGrammar.Dictionary
import ValueGrammar.Json.Reader
import ValueGrammar.Proofs.Interchange

/-!
# Surplus members

Of the object under the key of a range, decoding looks at the two counts and the body and at no
other member. So a value can be decoded although it is no encoding. `Json.prune` takes these surplus
members away, and what is decoded is encoded again as the value without them.

This is said of values whose objects list their keys in increasing order, as all values do that are
read.

Headlines:
* **`Json.inOrder_of_parse?`**: what is read lists its keys in order.
* **`ofJson_prune`**: surplus members do not change what is decoded.
* **`toJson_of_ofJson`**: what is decoded is encoded again without them.
* **`ofJson_eq_ok_iff_prune`**: the values that are decoded, and those that come back.
-/

namespace ValueGrammar

namespace Json

/-! ## Order -/

/-- Whether all objects in a value list their keys in increasing order. -/
inductive InOrder : Json → Prop
  | null : InOrder .null
  | bool (value : Bool) : InOrder (.bool value)
  | natural (value : Nat) : InOrder (.natural value)
  | decimal (spelling : String) : InOrder (.decimal spelling)
  | string (text : String) : InOrder (.string text)
  | array {items : List Json} (h : ∀ v ∈ items, InOrder v) : InOrder (.array items)
  | object {members : List (String × Json)} (sorted : members.Pairwise fun a b => a.1 < b.1)
      (h : ∀ m ∈ members, InOrder m.2) : InOrder (.object members)

/-! ## Pruning -/

/-- The keys of the counts and the body of a range. -/
def rangeKeys : List String := ["end", "expression", "start"]

/-- A value under a key: of a range only the counts and the body. -/
def pruneUnder (key : String) : Json → Json
  | .object members =>
    .object (if key = Tag.counted.name then members.filter (·.1 ∈ rangeKeys) else members)
  | v => v

mutual

/-- A value without the surplus members of the ranges in it. -/
def prune : Json → Json
  | .array items => .array (pruneEach items)
  | .object members => .object (pruneMembers members)
  | v => v

/-- Several values without surplus members. -/
def pruneEach : List Json → List Json
  | [] => []
  | v :: vs => v.prune :: pruneEach vs

/-- The members of an object, their values without surplus members. -/
def pruneMembers : List (String × Json) → List (String × Json)
  | [] => []
  | (key, v) :: rest => (key, v.prune.pruneUnder key) :: pruneMembers rest

end

@[simp] theorem pruneEach_eq_map : ∀ vs : List Json, pruneEach vs = vs.map prune
  | [] => rfl
  | v :: vs => by rw [pruneEach, pruneEach_eq_map vs, List.map_cons]

@[simp] theorem pruneMembers_eq_map : ∀ members : List (String × Json),
    pruneMembers members = members.map fun m => (m.1, m.2.prune.pruneUnder m.1)
  | [] => rfl
  | (key, v) :: rest => by rw [pruneMembers, pruneMembers_eq_map rest, List.map_cons]

theorem pruneUnder_of_ne {key : String} (h : key ≠ Tag.counted.name) (v : Json) :
    v.pruneUnder key = v := by
  cases v with
  | object members => rw [pruneUnder, if_neg h]
  | _ => rfl

end Json

/-! ## Members by their keys -/

namespace Dictionary

variable {α β : Type}

theorem find?_map_value (key : String) (f : String → α → β) : ∀ l : List (String × α),
    find? key (l.map fun e => (e.1, f e.1 e.2)) = (find? key l).map (f key)
  | [] => rfl
  | (k, v) :: rest => by
    rw [List.map_cons, find?, find?, find?_map_value key f rest]
    split
    · next h => rw [h, Option.map_some]
    · rfl

theorem find?_filter_key (key : String) (p : String → Bool) : ∀ l : List (String × α),
    find? key (l.filter fun e => p e.1) = if p key then find? key l else none
  | [] => by simp [find?]
  | (k, v) :: rest => by
    have ih := find?_filter_key key p rest
    by_cases hk : k = key
    · subst hk
      by_cases hp : p k
      · simp [hp, find?]
      · simpa [hp, find?] using ih
    · by_cases hp : p k <;> simpa [hp, hk, find?] using ih

end Dictionary

namespace Json

theorem get?_object (key : String) : ∀ members : List (String × Json),
    (object members).get? key = Dictionary.find? key members
  | [] => rfl
  | (k, v) :: rest => by
    have ih := get?_object key rest
    rw [get?] at ih ⊢
    by_cases hk : k = key
    · simp [Dictionary.find?, hk]
    · simp [Dictionary.find?, hk, ih]

/-- Under a key of a range nothing is lost, but for the surplus members inside. -/
theorem find?_pruned {key : String} (hkey : key ∈ rangeKeys) (members : List (String × Json)) :
    Dictionary.find? key ((pruneMembers members).filter (·.1 ∈ rangeKeys)) =
      (Dictionary.find? key members).map prune := by
  have hne : key ≠ Tag.counted.name := by
    rintro rfl
    exact absurd hkey (by decide)
  have hvalue : (fun v : Json => v.prune.pruneUnder key) = prune :=
    funext fun v => pruneUnder_of_ne hne v.prune
  calc Dictionary.find? key ((pruneMembers members).filter (·.1 ∈ rangeKeys))
    _ = Dictionary.find? key (pruneMembers members) := by
      rw [Dictionary.find?_filter_key key fun k => k ∈ rangeKeys, if_pos (decide_eq_true hkey)]
    _ = (Dictionary.find? key members).map fun v => v.prune.pruneUnder key := by
      rw [pruneMembers_eq_map]
      exact Dictionary.find?_map_value key (fun k v => v.prune.pruneUnder k) members
    _ = (Dictionary.find? key members).map prune := by rw [hvalue]

theorem naturalBelow?_prune (bound : Nat) (v : Json) :
    v.prune.naturalBelow? bound = v.naturalBelow? bound := by
  cases v <;> rfl

/-! ## Reading in order -/

theorem inOrder_of_number? {cs rest : List Char} {v : Json} (h : number? cs = some (v, rest)) :
    v.InOrder := by
  simp only [number?, Option.bind_eq_bind, Option.bind_eq_some_iff] at h
  obtain ⟨digits, -, exponent, -, h⟩ := h
  rcases ite_eq_iff.mp h with ⟨-, h⟩ | ⟨-, h⟩
  · cases h
    exact .natural _
  · cases h
    exact .decimal _

theorem inOrder_place (key : String) {v : Json} (hv : v.InOrder) {members : List (String × Json)}
    (h : (object members).InOrder) : (object (Dictionary.place key v members)).InOrder := by
  cases h with
  | object sorted h =>
    refine .object (Dictionary.sorted_place key v sorted) fun m hm => ?_
    rcases Dictionary.mem_place hm with rfl | hm
    · exact hv
    · exact h m hm

mutual

theorem inOrder_of_value? : ∀ {depth : Nat} {cs rest : List Char} {v : Json},
    value? depth cs = some (v, rest) → v.InOrder
  | depth + 1, cs, rest, v, h => by
    rw [value?] at h
    split at h
    · cases h
    split at h
    · obtain ⟨r, -, hr⟩ := Option.map_eq_some_iff.mp h
      cases hr
      exact .string _
    split at h
    · split at h
      · cases h
      split at h
      · cases h
        exact .array (List.forall_mem_nil _)
      · obtain ⟨r, hitems, hr⟩ := Option.map_eq_some_iff.mp h
        cases hr
        exact .array (inOrder_of_items? hitems)
    split at h
    · split at h
      · cases h
      split at h
      · cases h
        exact .object .nil (List.forall_mem_nil _)
      · obtain ⟨r, hmembers, hr⟩ := Option.map_eq_some_iff.mp h
        cases hr
        exact inOrder_of_members? (.object .nil (List.forall_mem_nil _)) hmembers
    split at h
    · obtain ⟨r, -, hr⟩ := Option.map_eq_some_iff.mp h
      cases hr
      exact .null
    split at h
    · obtain ⟨r, -, hr⟩ := Option.map_eq_some_iff.mp h
      cases hr
      exact .bool true
    split at h
    · obtain ⟨r, -, hr⟩ := Option.map_eq_some_iff.mp h
      cases hr
      exact .bool false
    · exact inOrder_of_number? h

theorem inOrder_of_items? : ∀ {depth : Nat} {cs rest : List Char} {vs : List Json},
    items? depth cs = some (vs, rest) → ∀ v ∈ vs, v.InOrder
  | depth + 1, cs, rest, vs, h => by
    rw [items?] at h
    split at h
    · cases h
    rename_i v after hv
    split at h
    · cases h
    split at h
    · obtain ⟨r, hitems, hr⟩ := Option.map_eq_some_iff.mp h
      cases hr
      exact List.forall_mem_cons.mpr ⟨inOrder_of_value? hv, inOrder_of_items? hitems⟩
    split at h
    · cases h
      exact List.forall_mem_singleton.mpr (inOrder_of_value? hv)
    · cases h

theorem inOrder_of_members? : ∀ {depth : Nat} {before members : List (String × Json)}
    {cs rest : List Char}, (object before).InOrder →
      members? depth before cs = some (members, rest) → (object members).InOrder
  | depth + 1, before, members, cs, rest, hbefore, h => by
    rw [members?] at h
    split at h
    · cases h
    split at h
    rotate_left
    · cases h
    split at h
    · cases h
    split at h
    · cases h
    split at h
    rotate_left
    · cases h
    split at h
    · cases h
    rename_i v after hv
    have hplaced := fun key => inOrder_place key (inOrder_of_value? hv) hbefore
    dsimp only at h
    split at h
    · cases h
    split at h
    · exact inOrder_of_members? (hplaced _) h
    split at h
    · cases h
      exact hplaced _
    · cases h

end

/-- What is read lists its keys in order. -/
theorem inOrder_of_parse? {s : String} {v : Json} (h : parse? s = some v) : v.InOrder := by
  rw [parse?] at h
  split at h
  · rename_i w rest hw
    obtain rfl := Option.some.inj (Option.ite_none_right_eq_some.mp h).2
    exact inOrder_of_value? hw
  · cases h

end Json

theorem Tag.name_injective : Function.Injective Tag.name := fun s t h => by
  have hs := Tag.ofName?_name s
  rw [h, Tag.ofName?_name] at hs
  exact (Option.some.inj hs).symm

namespace Expr

/-! ## Decoding without surplus members -/

theorem prune_tagged {tag : Tag} (h : tag ≠ .counted) (payload : Json) :
    (tagged tag payload).prune = tagged tag payload.prune := by
  rw [tagged, Json.prune, Json.pruneMembers, Json.pruneMembers,
    Json.pruneUnder_of_ne (Tag.name_injective.ne h), tagged]

theorem leafText_prune (tag : Tag) (payload : Json) :
    leafText tag payload.prune = leafText tag payload := by
  cases payload <;> rfl

theorem boundOf_pruned {key : String} (hkey : key ∈ Json.rangeKeys) :
    ∀ payload : Json, boundOf key (payload.prune.pruneUnder Tag.counted.name) = boundOf key payload
  | .object members => by
    rw [Json.prune, Json.pruneUnder, if_pos rfl, boundOf, boundOf, Json.get?_object,
      Json.get?_object, Json.find?_pruned hkey]
    cases Dictionary.find? key members with
    | none => rfl
    | some v => rw [Option.map_some, Option.bind_some, Option.bind_some, Json.naturalBelow?_prune]
  | .null | .bool _ | .natural _ | .decimal _ | .string _ | .array _ => rfl

theorem boundsOf_pruned (payload : Json) :
    boundsOf (payload.prune.pruneUnder Tag.counted.name) = boundsOf payload := by
  rw [boundsOf, boundsOf, boundOf_pruned (by decide), boundOf_pruned (by decide)]

mutual

/-- Surplus members do not change what is decoded. -/
theorem ofJson_prune : ∀ v : Json, ofJson v.prune = ofJson v
  | .object [] => rfl
  | .object (_ :: _ :: _) => by simp [Json.prune, Json.pruneMembers, ofJson]
  | .object [(name, payload)] => by
    cases ht : Tag.ofName? name with
    | none => rw [Json.prune, Json.pruneMembers, Json.pruneMembers, ofJson, ofJson, ht]
    | some tag =>
      obtain rfl := Tag.name_of_ofName? ht
      by_cases hcounted : tag = .counted
      · subst hcounted
        rw [Json.prune, Json.pruneMembers, Json.pruneMembers, ofJson, ofJson, ht]
        simp only [boundsOf_pruned, bodyOf_pruned payload]
      · rw [← tagged, prune_tagged hcounted, tagged, tagged, ofJson, ofJson, ht]
        cases tag with
        | identifier | typeRef | quoted => simp only [leafText_prune]
        | optional | zeroOrMore | oneOrMore | commaSeparated | group =>
          simp only [ofJson_prune payload]
        | counted => exact absurd rfl hcounted
        | combined c => simp only [operandsOf_prune c payload]
  | .null | .bool _ | .natural _ | .decimal _ | .string _ | .array _ => rfl

theorem bodyOf_pruned : ∀ payload : Json,
    bodyOf (payload.prune.pruneUnder Tag.counted.name) = bodyOf payload
  | .object members => by
    rw [Json.prune, Json.pruneUnder, if_pos rfl, bodyOf, bodyOf, bodyAmong_pruned members]
  | .null | .bool _ | .natural _ | .decimal _ | .string _ | .array _ => rfl

theorem bodyAmong_pruned : ∀ members : List (String × Json),
    bodyAmong ((Json.pruneMembers members).filter (·.1 ∈ Json.rangeKeys)) = bodyAmong members
  | [] => rfl
  | (key, value) :: rest => by
    rw [Json.pruneMembers, bodyAmong]
    by_cases hkey : key = "expression"
    · subst hkey
      rw [List.filter_cons_of_pos (by simp [Json.rangeKeys]), bodyAmong, if_pos rfl, if_pos rfl,
        Json.pruneUnder_of_ne (by decide), ofJson_prune value]
    · rw [if_neg hkey, ← bodyAmong_pruned rest, List.filter_cons]
      split
      · rw [bodyAmong, if_neg hkey]
      · rfl

theorem operandsOf_prune (c : Combinator) : ∀ payload : Json,
    operandsOf c payload.prune = operandsOf c payload
  | .array items => by
    rw [Json.prune, operandsOf, operandsOf, ofJsonList_prune items, Json.pruneEach_eq_map,
      List.length_map]
  | .null | .bool _ | .natural _ | .decimal _ | .string _ | .object _ => rfl

theorem ofJsonList_prune : ∀ vs : List Json, ofJsonList (Json.pruneEach vs) = ofJsonList vs
  | [] => rfl
  | v :: vs => by rw [Json.pruneEach, ofJsonList, ofJsonList, ofJson_prune v, ofJsonList_prune vs]

end

/-! ## Encoding what was decoded -/

theorem eq_string_of_leafText {tag : Tag} {payload : Json} {text : String}
    (h : leafText tag payload = .ok text) : payload = .string text := by
  cases payload with
  | string t => rw [Except.ok.inj h]
  | _ => cases h

/-- The counts and the body of a range are all that is left of its members. -/
theorem pruned_members_eq {members : List (String × Json)} {least most : Nat} {body : Json}
    (sorted : members.Pairwise fun a b => a.1 < b.1)
    (hleast : Dictionary.find? "start" members = some (.natural least))
    (hmost : Dictionary.find? "end" members = some (.natural most))
    (hbody : (Dictionary.find? "expression" members).map Json.prune = some body) :
    (Json.pruneMembers members).filter (·.1 ∈ Json.rangeKeys) =
      [("end", .natural most), ("expression", body), ("start", .natural least)] := by
  have hpruned : (members.map fun m => (m.1, m.2.prune.pruneUnder m.1)).Pairwise
      fun a b => a.1 < b.1 := List.pairwise_map.mpr sorted
  have hthree : ["end", "expression", "start"].Pairwise (· < ·) := by decide
  refine Dictionary.eq_of_find?_eq ?_ (List.pairwise_map.mp hthree) fun key => ?_
  · rw [Json.pruneMembers_eq_map]
    exact hpruned.filter _
  by_cases hkey : key ∈ Json.rangeKeys
  · rw [Json.find?_pruned hkey]
    simp only [Json.rangeKeys, List.mem_cons, List.not_mem_nil, or_false] at hkey
    rcases hkey with rfl | rfl | rfl
    · rw [hmost]
      rfl
    · rw [hbody]
      rfl
    · rw [hleast]
      rfl
  · rw [Dictionary.find?_filter_key key fun k => k ∈ Json.rangeKeys, if_neg (by simpa using hkey)]
    simp only [Json.rangeKeys, List.mem_cons, List.not_mem_nil, or_false, not_or] at hkey
    simp [Dictionary.find?, Ne.symm hkey.1, Ne.symm hkey.2.1, Ne.symm hkey.2.2]

theorem find?_of_boundOf {key : String} {members : List (String × Json)} {n : UInt32}
    (h : boundOf key (.object members) = .ok n) :
    Dictionary.find? key members = some (.natural n.toNat) :=
  (Json.get?_object key members).symm.trans (boundOf_eq_ok_iff.mp h)

theorem find?_of_boundsOf {members : List (String × Json)} {m : Multiplier}
    (h : boundsOf (.object members) = .ok m) : ∃ least most, m = .counted least most ∧
      Dictionary.find? "start" members = some (.natural least.toNat) ∧
      Dictionary.find? "end" members = some (.natural most.toNat) := by
  obtain ⟨least, hleast, h⟩ := bind_eq_ok_iff.mp h
  obtain ⟨most, hmost, h⟩ := bind_eq_ok_iff.mp h
  split at h
  · cases h
  · exact ⟨least, most, pure_eq_ok_iff.mp h, find?_of_boundOf hleast, find?_of_boundOf hmost⟩

mutual

/-- What is decoded is encoded again without surplus members. -/
theorem toJson_of_ofJson : ∀ {v : Json} {e : Expr},
    v.InOrder → ofJson v = .ok e → e.toJson = v.prune
  | .object [(name, payload)], e, .object _ hmembers, h => by
    have hpayload : payload.InOrder := hmembers _ List.mem_cons_self
    rw [ofJson] at h
    cases ht : Tag.ofName? name with
    | none =>
      rw [ht] at h
      cases h
    | some tag =>
      rw [ht] at h
      obtain rfl := Tag.name_of_ofName? ht
      cases tag with
      | identifier | typeRef | quoted =>
        obtain ⟨text, htext, rfl⟩ := bind_pure_eq_ok_iff.mp h
        rw [eq_string_of_leafText htext]
        rfl
      | optional | zeroOrMore | oneOrMore | commaSeparated | group =>
        obtain ⟨body, hbody, rfl⟩ := bind_pure_eq_ok_iff.mp h
        have ih := toJson_of_ofJson hpayload hbody
        exact (congrArg (tagged _) ih).trans (prune_tagged (by decide) payload).symm
      | counted =>
        obtain ⟨m, hm, h⟩ := bind_eq_ok_iff.mp h
        obtain ⟨body, hbody, rfl⟩ := bind_pure_eq_ok_iff.mp h
        exact toJson_of_bodyOf hpayload hm hbody
      | combined c =>
        obtain ⟨operands, hoperands, rfl⟩ := bind_pure_eq_ok_iff.mp h
        have ih := toJson_of_operandsOf hpayload hoperands
        rw [toJson_combined, ih]
        exact (prune_tagged Tag.noConfusion payload).symm

theorem toJson_of_bodyOf : ∀ {payload : Json} {m : Multiplier} {body : Expr}, payload.InOrder →
    boundsOf payload = .ok m → bodyOf payload = .ok body →
      (multiplied body m).toJson = (tagged .counted payload).prune
  | .object members, m, body, .object sorted hmembers, hm, hbody => by
    obtain ⟨least, most, rfl, hleast, hmost⟩ := find?_of_boundsOf hm
    have hvalue := toJson_of_bodyAmong hmembers hbody
    rw [tagged, Json.prune, Json.pruneMembers, Json.pruneMembers, Json.prune, Json.pruneUnder,
      if_pos rfl, pruned_members_eq sorted hleast hmost hvalue]
    rfl

theorem toJson_of_bodyAmong : ∀ {members : List (String × Json)} {e : Expr},
    (∀ m ∈ members, m.2.InOrder) → bodyAmong members = .ok e →
      (Dictionary.find? "expression" members).map Json.prune = some e.toJson
  | (key, value) :: rest, e, hmembers, h => by
    obtain ⟨hvalue, hrest⟩ := List.forall_mem_cons.mp hmembers
    rw [bodyAmong] at h
    rw [Dictionary.find?]
    split at h
    · rename_i hkey
      rw [if_pos hkey, Option.map_some, toJson_of_ofJson hvalue h]
    · rename_i hkey
      rw [if_neg hkey, toJson_of_bodyAmong hrest h]

theorem toJson_of_operandsOf : ∀ {c : Combinator} {v : Json} {es : List Expr},
    v.InOrder → operandsOf c v = .ok es → .array (es.map toJson) = v.prune
  | c, .array items, es, .array hitems, h => by
    rw [operandsOf] at h
    split at h
    · cases h
    · rw [toJson_of_ofJsonList hitems h, Json.prune, Json.pruneEach_eq_map]

theorem toJson_of_ofJsonList : ∀ {vs : List Json} {es : List Expr},
    (∀ v ∈ vs, v.InOrder) → ofJsonList vs = .ok es → es.map toJson = vs.map Json.prune
  | [], es, _, h => by
    cases h
    rfl
  | v :: vs, es, hvs, h => by
    obtain ⟨hv, hvs⟩ := List.forall_mem_cons.mp hvs
    obtain ⟨e, he, h⟩ := bind_eq_ok_iff.mp h
    obtain ⟨es, hes, h⟩ := bind_eq_ok_iff.mp h
    obtain rfl := pure_eq_ok_iff.mp h
    rw [List.map_cons, List.map_cons, toJson_of_ofJson hv he, toJson_of_ofJsonList hvs hes]

end

/-- What is decoded are the encodings of well-formed expressions, with or without surplus members.
Encoding gives those back that have none. -/
theorem ofJson_eq_ok_iff_prune {v : Json} (hv : v.InOrder) {e : Expr} :
    (ofJson v = .ok e ↔ e.WellFormed ∧ e.toJson = v.prune) ∧
      (ofJson v = .ok e → (e.toJson = v ↔ v.prune = v)) := by
  refine ⟨⟨fun h => ⟨wellFormed_of_ofJson h, toJson_of_ofJson hv h⟩, ?_⟩, fun h => ?_⟩
  · rintro ⟨he, heq⟩
    rw [← ofJson_prune, ← heq, ofJson_toJson, firstFlaw?_eq_none_iff.mpr he, outcome]
  · rw [toJson_of_ofJson hv h]

/-- A range with a note, the second operand of a sequence. -/
theorem ofJson_eq_ok_iff_prune_note :
    let e : Expr := .combined .juxtaposition
      [.leaf (.identifier "a"), .multiplied (.leaf (.typeRef "b")) (.counted 1 2)]
    let noted : Json := .object [("end", .natural 2),
      ("expression", .object [("type", .string "b")]), ("note", .bool true), ("start", .natural 1)]
    let v : Json := .object [("and", .array [.object [("identifier", .string "a")],
      .object [("range", noted)]])]
    v.InOrder ∧ ofJson v = .ok e ∧ e.WellFormed ∧ e.toJson = v.prune ∧ e.toJson ≠ v := by
  intro e noted v
  have hnoted : noted.InOrder := by
    refine .object (List.pairwise_map.mp
      (by decide : ["end", "expression", "note", "start"].Pairwise (· < ·))) ?_
    simp only [List.forall_mem_cons]
    exact ⟨.natural 2, .object (List.pairwise_singleton _ _) (List.forall_mem_singleton.mpr
      (.string "b")), .bool true, .natural 1, List.forall_mem_nil _⟩
  have hv : v.InOrder := by
    refine .object (List.pairwise_singleton _ _) (List.forall_mem_singleton.mpr (.array ?_))
    simp only [List.forall_mem_cons]
    exact ⟨.object (List.pairwise_singleton _ _) (List.forall_mem_singleton.mpr (.string "a")),
      .object (List.pairwise_singleton _ _) (List.forall_mem_singleton.mpr hnoted),
      List.forall_mem_nil _⟩
  have hdecode : ofJson v = .ok e := by decide +kernel
  obtain ⟨hiff, hback⟩ := ofJson_eq_ok_iff_prune hv (e := e)
  obtain ⟨he, hprune⟩ := hiff.mp hdecode
  refine ⟨hv, hdecode, he, hprune, fun h => ?_⟩
  have hpruned := (hback hdecode).mp h
  simp [v, noted, Json.prune, Json.pruneMembers, Json.pruneEach, Json.pruneUnder, Json.rangeKeys,
    Tag.name] at hpruned

/-- **A member that is lost**: a range with one more member is decoded, and encoded without it. -/
theorem surplus_member_lost :
    let ranged (surplus : List (String × Json)) : Json := .object [("range", .object
      ([("end", .natural 2), ("expression", .object [("identifier", .string "a")]),
        ("start", .natural 1)] ++ surplus))]
    ∃ e : Expr, ofJson (ranged [("x", .null)]) = .ok e ∧ e.toJson = ranged [] ∧
      e.toJson ≠ ranged [("x", .null)] :=
  ⟨.multiplied (.leaf (.identifier "a")) (.counted 1 2), by decide +kernel, rfl, nofun⟩

end Expr

end ValueGrammar
