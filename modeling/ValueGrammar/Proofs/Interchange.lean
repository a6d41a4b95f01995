import ValueGrammar.Compiled
import ValueGrammar.Expr.Printer
import ValueGrammar.Proofs.Parts

/-!
# Encoding and decoding

What an expression is encoded as is decoded as that expression, if it is well formed. If it is not,
decoding reports the first of its parts that is not well made, where a part stands before its own
parts and operands stand from left to right.

A context is an expression with a hole in place of one of its parts, and encodes what stands in the
hole together with what stands around it. So a value that cannot be decoded makes every encoding
around it fail for the same reason.

Headlines:
* **`ofJson_toJson`**: an encoding is decoded as the expression, or for its first flaw not at all.
* **`decodes_iff_wellFormed`**: decoding undoes encoding exactly on well-formed expressions.
* **`ofJson_encode_error`**: what cannot be decoded in a hole cannot be decoded with its context.
* **`unknown_tag_is_reported`**: an unknown tag in place of any part is reported.
-/

namespace ValueGrammar

namespace Expr

/-! ## Parts in order -/

mutual

/-- The parts of an expression, each before its own parts, operands from left to right. -/
def parts : Expr → List Expr
  | .leaf l => [.leaf l]
  | .group body => .group body :: body.parts
  | .multiplied body m => .multiplied body m :: body.parts
  | .combined c operands => .combined c operands :: partsEach operands

/-- The parts of several expressions. -/
def partsEach : List Expr → List Expr
  | [] => []
  | e :: es => e.parts ++ partsEach es

end

@[simp] theorem partsEach_eq_flatMap : ∀ es : List Expr, partsEach es = es.flatMap parts
  | [] => rfl
  | e :: es => by rw [partsEach, partsEach_eq_flatMap es, List.flatMap_cons]

theorem parts_eq (e : Expr) : e.parts = e :: e.children.flatMap parts := by
  cases e with
  | leaf l => rfl
  | group body | multiplied body m => simp [parts, children]
  | combined c operands => rw [parts, partsEach_eq_flatMap, children]

/-- The parts in order are all the parts. -/
theorem mem_parts_iff {d e : Expr} : d ∈ e.parts ↔ PartOf d e := by
  constructor
  · induction e using inductionOn with
    | leaf l =>
      rintro h
      rw [List.mem_singleton.mp h]
      exact .refl _
    | group body ih | multiplied body m ih =>
      intro h
      rcases List.mem_cons.mp h with rfl | h
      · exact .refl _
      · exact .child List.mem_cons_self (ih h)
    | combined c operands ih =>
      intro h
      rw [parts_eq] at h
      rcases List.mem_cons.mp h with rfl | h
      · exact .refl _
      · obtain ⟨o, ho, h⟩ := List.mem_flatMap.mp h
        exact .child ho (ih o ho h)
  · intro h
    induction h with
    | refl =>
      rw [parts_eq]
      exact List.mem_cons_self
    | child hc _ ih =>
      rw [parts_eq]
      exact List.mem_cons_of_mem _ (List.mem_flatMap.mpr ⟨_, hc, ih⟩)

/-! ## Flaws -/

end Expr

/-- What is wrong with the counts of a multiplier, if they are not in order. -/
def Multiplier.flaw? : Multiplier → Option DecodeError
  | .counted least most =>
    if most < least then some (.malformed Tag.counted.name (.inverted least most)) else none
  | .optional | .zeroOrMore | .oneOrMore | .commaSeparated => none

namespace Expr

/-- What is wrong with an expression itself, if it is not well made. -/
def flaw? : Expr → Option DecodeError
  | .leaf _ | .group _ => none
  | .multiplied _ m => m.flaw?
  | .combined c operands =>
    if operands.length < 2 then some (.malformed (Tag.combined c).name .tooFewOperands) else none

/-- The flaw of the first part that is not well made. -/
def firstFlaw? (e : Expr) : Option DecodeError := e.parts.findSome? flaw?

theorem flaw?_eq_none_iff {e : Expr} : e.flaw? = none ↔ e.IsWellMade := by
  cases e with
  | leaf l => exact iff_of_true rfl trivial
  | group body => exact iff_of_true rfl trivial
  | multiplied body m =>
    cases m with
    | counted least most =>
      simp [flaw?, Multiplier.flaw?, IsWellMade, Multiplier.Ordered]
    | optional | zeroOrMore | oneOrMore | commaSeparated => exact iff_of_true rfl trivial
  | combined c operands =>
    rw [flaw?]
    split
    · next hlt => exact iff_of_false (by simp) (Nat.not_le_of_lt hlt)
    · next hge => exact iff_of_true rfl (Nat.le_of_not_lt hge)

/-- An expression without flaws is well formed. -/
theorem firstFlaw?_eq_none_iff {e : Expr} : e.firstFlaw? = none ↔ e.WellFormed := by
  simp only [firstFlaw?, List.findSome?_eq_none_iff, mem_parts_iff, flaw?_eq_none_iff]
  exact Iff.rfl

theorem exists_malformed_of_flaw? {e : Expr} {err : DecodeError} (h : e.flaw? = some err) :
    ∃ tag cause, err = .malformed tag cause := by
  cases e with
  | leaf l | group body => cases h
  | multiplied body m =>
    cases m with
    | counted least most =>
      exact ⟨_, _, (Option.some.inj (Option.ite_none_right_eq_some.mp h).2).symm⟩
    | optional | zeroOrMore | oneOrMore | commaSeparated => cases h
  | combined c operands =>
    exact ⟨_, _, (Option.some.inj (Option.ite_none_right_eq_some.mp h).2).symm⟩

theorem firstFlaw?_eq (e : Expr) :
    e.firstFlaw? = e.flaw?.or ((e.children.flatMap parts).findSome? flaw?) := by
  rw [firstFlaw?, parts_eq, List.findSome?_cons]
  cases e.flaw? <;> rfl

/-! ## Outcomes -/

section Outcome

variable {α β : Type} {flaw second : Option DecodeError} {a : α}

/-- An answer, unless there is an error. -/
def outcome (flaw : Option DecodeError) (a : α) : Except DecodeError α :=
  match flaw with
  | some err => .error err
  | none => .ok a

theorem outcome_eq_ok_iff : outcome flaw a = .ok a ↔ flaw = none := by
  cases flaw <;> simp [outcome]

theorem outcome_bind {f : α → Except DecodeError β} :
    outcome flaw a >>= f = flaw.elim (f a) .error := by
  cases flaw <;> rfl

/-- Of two errors the first one counts. -/
theorem outcome_or : outcome (flaw.or second) a = flaw.elim (outcome second a) .error := by
  cases flaw <;> rfl

end Outcome

/-! ## Encodings of one kind -/

end Expr

/-- What stands under the key of a multiplier: the body, for a range among the two counts. -/
def Multiplier.payload (body : Json) : Multiplier → Json
  | .counted least most => .object
    [("end", .natural most.toNat), ("expression", body), ("start", .natural least.toNat)]
  | .optional | .zeroOrMore | .oneOrMore | .commaSeparated => body

namespace Expr

theorem toJson_multiplied (body : Expr) (m : Multiplier) :
    (multiplied body m).toJson = tagged m.tag (m.payload body.toJson) := by
  cases m <;> rfl

theorem toJson_combined (c : Combinator) (operands : List Expr) :
    (combined c operands).toJson = tagged (.combined c) (.array (operands.map toJson)) := by
  rw [toJson, toJsonList_eq_map]

theorem naturalBelow?_eq_some_iff {v : Json} {bound n : Nat} :
    v.naturalBelow? bound = some n ↔ v = .natural n ∧ n < bound := by
  cases v with
  | natural k =>
    rw [Json.naturalBelow?, Option.ite_none_right_eq_some, Option.some.injEq, Json.natural.injEq]
    constructor
    · rintro ⟨h, rfl⟩
      exact ⟨rfl, h⟩
    · rintro ⟨rfl, h⟩
      exact ⟨h, rfl⟩
  | _ => simp [Json.naturalBelow?]

/-- A count is read where it stands as a natural number. -/
theorem boundOf_eq_ok_iff {key : String} {payload : Json} {n : UInt32} :
    boundOf key payload = .ok n ↔ payload.get? key = some (.natural n.toNat) := by
  have hbind : ∀ k, (payload.get? key).bind (Json.naturalBelow? UInt32.size) = some k ↔
      payload.get? key = some (.natural k) ∧ k < UInt32.size := by
    intro k
    rw [Option.bind_eq_some_iff]
    constructor
    · rintro ⟨v, hv, h⟩
      obtain ⟨rfl, hk⟩ := naturalBelow?_eq_some_iff.mp h
      exact ⟨hv, hk⟩
    · rintro ⟨hv, hk⟩
      exact ⟨_, hv, naturalBelow?_eq_some_iff.mpr ⟨rfl, hk⟩⟩
  constructor
  · intro h
    rw [boundOf] at h
    split at h
    · rename_i k hk
      obtain ⟨hget, hlt⟩ := (hbind k).mp hk
      obtain rfl := Except.ok.inj h
      rw [hget, UInt32.toNat_ofNat_of_lt' hlt]
    · cases h
  · intro h
    rw [boundOf, (hbind n.toNat).mpr ⟨h, n.toNat_lt⟩]
    simp only [UInt32.ofNat_toNat]

/-- The counts of a range are read if they are in order, and then the body. -/
theorem ofJson_multiplied (v : Json) (m : Multiplier) :
    ofJson (tagged m.tag (m.payload v)) =
      m.flaw?.elim (return .multiplied (← ofJson v) m) .error := by
  cases m with
  | optional | zeroOrMore | oneOrMore | commaSeparated => rfl
  | counted least most =>
    have hleast : boundOf "start" ((Multiplier.counted least most).payload v) = .ok least :=
      boundOf_eq_ok_iff.mpr rfl
    have hmost : boundOf "end" ((Multiplier.counted least most).payload v) = .ok most :=
      boundOf_eq_ok_iff.mpr rfl
    have hbody : bodyOf ((Multiplier.counted least most).payload v) = ofJson v := rfl
    have h : ofJson (tagged .counted ((Multiplier.counted least most).payload v)) =
        boundsOf ((Multiplier.counted least most).payload v) >>= fun m =>
          return .multiplied (← bodyOf ((Multiplier.counted least most).payload v)) m := rfl
    have hbounds : boundsOf ((Multiplier.counted least most).payload v) =
        outcome (Multiplier.counted least most).flaw? (.counted least most) := by
      rw [boundsOf, hleast, hmost, Multiplier.flaw?]
      show (if most < least then _ else _) = _
      split <;> rfl
    rw [Multiplier.tag, h, hbody, hbounds, outcome_bind]

theorem ofJson_group (v : Json) : ofJson (tagged .group v) = return .group (← ofJson v) := rfl

/-- Two or more operands are read one by one. -/
theorem ofJson_combined (c : Combinator) (items : List Json) :
    ofJson (tagged (.combined c) (.array items)) =
      if items.length < 2 then .error (.malformed (Tag.combined c).name .tooFewOperands)
      else return .combined c (← items.mapM ofJson) := by
  have h : ofJson (tagged (.combined c) (.array items)) =
      operandsOf c (.array items) >>= fun operands => pure (.combined c operands) := by
    rw [tagged, ofJson, Tag.ofName?_name]
  rw [h, operandsOf, ofJsonList_eq_mapM]
  split <;> rfl

/-! ## Decoding an encoding -/

theorem mapM_ofJson_toJson {es : List Expr}
    (h : ∀ e ∈ es, ofJson e.toJson = outcome e.firstFlaw? e) :
    (es.map toJson).mapM ofJson = outcome ((es.flatMap parts).findSome? flaw?) es := by
  induction es with
  | nil => rfl
  | cons e es ih =>
    obtain ⟨he, hes⟩ := List.forall_mem_cons.mp h
    rw [List.map_cons, List.mapM_cons, he, ih hes, List.flatMap_cons, List.findSome?_append,
      ← firstFlaw?, outcome_or]
    cases e.firstFlaw? with
    | some err => rfl
    | none => cases (es.flatMap parts).findSome? flaw? <;> rfl

/-- An encoding is decoded as the expression, or for its first flaw not at all. -/
theorem ofJson_toJson (e : Expr) : ofJson e.toJson = outcome e.firstFlaw? e := by
  induction e using inductionOn with
  | leaf l => cases l <;> rfl
  | group body ih =>
    have h : (group body).firstFlaw? = body.firstFlaw? := rfl
    rw [h, show (group body).toJson = tagged .group body.toJson from rfl, ofJson_group, ih]
    cases body.firstFlaw? <;> rfl
  | multiplied body m ih =>
    have hchildren : (multiplied body m).children.flatMap parts = body.parts := by simp [children]
    rw [toJson_multiplied, ofJson_multiplied, ih, firstFlaw?_eq (multiplied body m), hchildren,
      ← firstFlaw?, outcome_or, flaw?]
    cases m.flaw? <;> cases body.firstFlaw? <;> rfl
  | combined c operands ih =>
    rw [toJson_combined, ofJson_combined, mapM_ofJson_toJson ih, firstFlaw?_eq, children,
      outcome_or, flaw?, List.length_map]
    split
    · rfl
    · cases (operands.flatMap parts).findSome? flaw? <;> rfl

/-- Decoding undoes encoding exactly on well-formed expressions; the error for any other one is that
of its first flaw. What is read is well formed. -/
theorem decodes_iff_wellFormed :
    (∀ e : Expr, ofJson e.toJson = .ok e ↔ e.WellFormed) ∧
      (∀ e : Expr, ¬ e.WellFormed → ∃ tag cause, e.firstFlaw? = some (.malformed tag cause) ∧
        ofJson e.toJson = .error (.malformed tag cause)) ∧
      ∀ input e, Expr.parse input = .ok e → ofJson e.toJson = .ok e := by
  have decodes : ∀ e : Expr, ofJson e.toJson = .ok e ↔ e.WellFormed := fun e => by
    rw [ofJson_toJson, outcome_eq_ok_iff, firstFlaw?_eq_none_iff]
  refine ⟨decodes, fun e he => ?_, fun input e h => (decodes e).mpr (wellFormed_of_parse h)⟩
  obtain ⟨err, hflaw⟩ := Option.ne_none_iff_exists'.mp (mt firstFlaw?_eq_none_iff.mp he)
  obtain ⟨d, -, hd⟩ := List.exists_of_findSome?_eq_some hflaw
  obtain ⟨tag, cause, rfl⟩ := exists_malformed_of_flaw? hd
  exact ⟨tag, cause, hflaw, by rw [ofJson_toJson, hflaw, outcome]⟩

/-- Of a range upside down and a choice of one thing in it, the range is reported. -/
theorem decodes_iff_wellFormed_nested :
    let choice : Expr := .combined .oneOf [.leaf (.quoted ",")]
    let e : Expr := .combined .juxtaposition
      [.leaf (.identifier "a"), .group (.multiplied choice (.counted 3 2))]
    ¬ e.WellFormed ∧ e.firstFlaw? = some (.malformed "range" (.inverted 3 2)) ∧
      ofJson e.toJson = .error (.malformed "range" (.inverted 3 2)) ∧
      ∃ d, Expr.parse "a [<b>\x7b1,2\x7d | \x27,\x27]" = .ok d ∧ d.WellFormed ∧
        ofJson d.toJson = .ok d := by
  intro choice e
  obtain ⟨decodes, flawed, read⟩ := decodes_iff_wellFormed
  have hflaw : e.firstFlaw? = some (.malformed "range" (.inverted 3 2)) := rfl
  have he : ¬ e.WellFormed := fun h => by cases (firstFlaw?_eq_none_iff.mpr h).symm.trans hflaw
  obtain ⟨tag, cause, hfirst, herror⟩ := flawed e he
  obtain h := Option.some.inj (hflaw.symm.trans hfirst)
  have hd := read "a [<b>\x7b1,2\x7d | \x27,\x27]"
    (.combined .juxtaposition [.leaf (.identifier "a"), .group (.combined .oneOf
      [.multiplied (.leaf (.typeRef "b")) (.counted 1 2), .leaf (.quoted ",")])]) (by decide +kernel)
  exact ⟨he, hflaw, h ▸ herror, _, by decide +kernel, (decodes _).mp hd, hd⟩

/-! ## Contexts -/

/-- An expression with a hole in place of one of its parts. -/
inductive Context
  | hole
  | group (inside : Context)
  | multiplied (inside : Context) (multiplier : Multiplier)
  | combined (combinator : Combinator) (before : List Expr) (inside : Context) (after : List Expr)

namespace Context

/-- The expression with a given part in the hole. -/
def fill (d : Expr) : Context → Expr
  | .hole => d
  | .group k => .group (k.fill d)
  | .multiplied k m => .multiplied (k.fill d) m
  | .combined c before k after => .combined c (before ++ k.fill d :: after)

/-- The encoding around the hole, with a given value in it. -/
def encode (v : Json) : Context → Json
  | .hole => v
  | .group k => tagged .group (k.encode v)
  | .multiplied k m => tagged m.tag (m.payload (k.encode v))
  | .combined c before k after =>
    tagged (.combined c) (.array (before.map toJson ++ k.encode v :: after.map toJson))

/-- The encoding of the whole is that of the part, among what stands around it. -/
theorem toJson_fill (d : Expr) : ∀ k : Context, (k.fill d).toJson = k.encode d.toJson
  | .hole => rfl
  | .group k => congrArg (tagged .group) (toJson_fill d k)
  | .multiplied k m => by rw [fill, toJson_multiplied, toJson_fill d k, encode]
  | .combined c before k after => by
    rw [fill, toJson_combined, List.map_append, List.map_cons, toJson_fill d k, encode]

/-- Every part stands in the hole of some context. -/
theorem exists_fill_of_partOf {d e : Expr} (h : PartOf d e) : ∃ k : Context, k.fill d = e := by
  induction h with
  | refl => exact ⟨.hole, rfl⟩
  | @child c e hc _ ih =>
    obtain ⟨k, rfl⟩ := ih
    cases e with
    | leaf l => cases hc
    | group body => exact ⟨.group k, congrArg Expr.group (List.mem_singleton.mp hc)⟩
    | multiplied body m =>
      exact ⟨.multiplied k m, congrArg (Expr.multiplied · m) (List.mem_singleton.mp hc)⟩
    | combined c operands =>
      obtain ⟨before, after, rfl⟩ := List.append_of_mem hc
      exact ⟨.combined c before k after, rfl⟩

/-- What stands in the hole is a part of the whole. -/
theorem partOf_fill (d : Expr) : ∀ k : Context, PartOf d (k.fill d)
  | .hole => .refl d
  | .group k => .child List.mem_cons_self (partOf_fill d k)
  | .multiplied k _ => .child List.mem_cons_self (partOf_fill d k)
  | .combined _ _ k _ => .child (List.mem_append_right _ List.mem_cons_self) (partOf_fill d k)

theorem exists_fill_iff {d e : Expr} : (∃ k : Context, k.fill d = e) ↔ PartOf d e := by
  constructor
  · rintro ⟨k, rfl⟩
    exact partOf_fill d k
  · exact exists_fill_of_partOf

theorem mapM_error_of_wellFormed {before : List Expr} (h : ∀ e ∈ before, e.WellFormed) {v : Json}
    {err : DecodeError} (hv : ofJson v = .error err) (vs : List Json) :
    (before.map toJson ++ v :: vs).mapM ofJson = .error err := by
  induction before with
  | nil =>
    rw [List.map_nil, List.nil_append, List.mapM_cons, hv]
    rfl
  | cons e es ih =>
    obtain ⟨he, hes⟩ := List.forall_mem_cons.mp h
    rw [List.map_cons, List.cons_append, List.mapM_cons, ih hes, ofJson_toJson,
      firstFlaw?_eq_none_iff.mpr he]
    rfl

/-- What cannot be decoded in a hole cannot be decoded with its context: nothing around it is wrong
before. -/
theorem ofJson_encode_error {d : Expr} {v : Json} {err : DecodeError} (hv : ofJson v = .error err) :
    ∀ k : Context, (k.fill d).WellFormed → ofJson (k.encode v) = .error err
  | .hole, _ => hv
  | .group k, h => by
    rw [encode, ofJson_group, ofJson_encode_error hv k (everywhere_group.mp h).2]
    rfl
  | .multiplied k m, h => by
    obtain ⟨hm, hbody⟩ := everywhere_multiplied.mp h
    have hflaw : m.flaw? = none := flaw?_eq_none_iff (e := .multiplied (k.fill d) m).mpr hm
    rw [encode, ofJson_multiplied, hflaw, ofJson_encode_error hv k hbody]
    rfl
  | .combined c before k after, h => by
    obtain ⟨hlen, hall⟩ := everywhere_combined.mp h
    have hinside : (k.fill d).WellFormed :=
      hall _ (List.mem_append_right _ List.mem_cons_self)
    have hbefore : ∀ e ∈ before, e.WellFormed := fun e he => hall e (List.mem_append_left _ he)
    rw [encode, ofJson_combined, if_neg,
      mapM_error_of_wellFormed hbefore (ofJson_encode_error hv k hinside)]
    · rfl
    · have hlen : 2 ≤ (before ++ k.fill d :: after).length := hlen
      simp only [List.length_append, List.length_cons, List.length_map] at hlen ⊢
      omega

end Context

theorem ofJson_unknown {tag : String} (h : ∀ t : Tag, t.name ≠ tag) (payload : Json) :
    ofJson (.object [(tag, payload)]) = .error (.unknownTag tag) := by
  cases ht : Tag.ofName? tag with
  | none => rw [ofJson, ht]
  | some t => exact absurd (Tag.name_of_ofName? ht) (h t)

/-- An object under an unknown key, put in place of any part of a well-formed expression's encoding,
is what decoding, printing and compiling report. -/
theorem unknown_tag_is_reported {e : Expr} (he : e.WellFormed) {tag : String}
    (htag : ∀ t : Tag, t.name ≠ tag) (payload : Json) :
    (∀ d, PartOf d e ↔ ∃ k : Context, k.fill d = e) ∧
      ∀ (k : Context) (d : Expr), k.fill d = e → e.toJson = k.encode d.toJson ∧
        ofJson (k.encode (.object [(tag, payload)])) = .error (.unknownTag tag) ∧
        sourceOfJson (k.encode (.object [(tag, payload)])) = .error (.unknownTag tag) ∧
        ∀ limits, compileOfJson (k.encode (.object [(tag, payload)])) limits =
          .error (.unknownTag tag) := by
  refine ⟨fun d => Context.exists_fill_iff.symm, ?_⟩
  rintro k d rfl
  have hdecode : ofJson (k.encode (.object [(tag, payload)])) = .error (.unknownTag tag) :=
    Context.ofJson_encode_error (ofJson_unknown htag payload) k he
  refine ⟨Context.toJson_fill d k, hdecode, ?_, fun limits => ?_⟩
  · rw [sourceOfJson, hdecode]
    rfl
  · rw [compileOfJson, hdecode]
    rfl

/-- In a range that is the second operand of a sequence, with a flawed value under the key. -/
theorem unknown_tag_is_reported_in_range :
    let body : Expr := .combined .oneOf [.leaf (.typeRef "b"), .leaf (.quoted ",")]
    let e : Expr := .combined .juxtaposition
      [.leaf (.identifier "a"), .multiplied body (.counted 1 2), .group body]
    let v : Json := tagged (.combined .juxtaposition) (.array [tagged .identifier (.string "a"),
      tagged .counted (.object [("end", .natural 2), ("expression", .object [("or", .array [])]),
        ("start", .natural 1)]), (Expr.group body).toJson])
    e.WellFormed ∧ (∀ t : Tag, t.name ≠ "or") ∧ PartOf body e ∧
      ofJson v = .error (.unknownTag "or") ∧ sourceOfJson v = .error (.unknownTag "or") ∧
      compileOfJson v ⟨4, some 1⟩ = .error (.unknownTag "or") := by
  intro body e v
  have he : e.WellFormed := firstFlaw?_eq_none_iff.mp rfl
  have htag (t : Tag) : t.name ≠ "or" := fun h => by
    have hnone : Tag.ofName? t.name = none := by
      rw [h]
      decide
    cases hnone.symm.trans (Tag.ofName?_name t)
  obtain ⟨hparts, hreport⟩ := unknown_tag_is_reported he htag (.array [])
  let k : Context :=
    .combined .juxtaposition [.leaf (.identifier "a")] (.multiplied .hole (.counted 1 2))
      [.group body]
  obtain ⟨-, hdecode, hprint, hcompile⟩ := hreport k body rfl
  exact ⟨he, htag, (hparts body).mpr ⟨k, rfl⟩, hdecode, hprint, hcompile ⟨4, some 1⟩⟩

end Expr

end ValueGrammar
