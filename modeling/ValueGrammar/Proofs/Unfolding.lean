import Mathlib.Data.List.Sort
import Mathlib.Order.Basic
import ValueGrammar.Proofs.Reference

/-!
# What an expansion comes to

Expanding goes through a text pass by pass. What it comes to is said without passes: `Unfolds`
replaces every reference to a defined name by what its definition unfolds to, in brackets, and
leaves all else as it is. A text after a pass unfolds to nothing else than the text before it; and
names without a definition stay in the text, so that none is reported that is not in it at the end.

Headlines:
* **`unfolds_unique`**: a text unfolds to one text at most.
* **`unfolds_of_replaced`**: a pass keeps what a text unfolds to.
* **`settled_of_settle`**: what the passes come to, and the names that are seen on the way.
* **`expand_unfolds`**: the text and the names that an expansion gives.
-/

namespace ValueGrammar.TypeTable

variable {t : TypeTable} {cs ds rest r s : List Char} {name : String}

/-! ## Unfolding -/

/-- **Unfolding a text**: every reference to a defined name is replaced by what the definition
unfolds to, in brackets, and every other character is kept. -/
inductive Unfolds (t : TypeTable) : List Char → List Char → Prop
  | nil : Unfolds t [] []
  | reference {name definition : String} {cs r s : List Char}
      (hname : Lexeme.IsTypeName name.toList) (hd : t.get? name = some definition)
      (hr : Unfolds t definition.toList r) (hs : Unfolds t cs s) :
      Unfolds t (referenceTo name ++ cs) ('[' :: (r ++ ']' :: s))
  | other {c : Char} {cs s : List Char}
      (h : ∀ name, Lexeme.IsTypeName name.toList → referenceTo name <+: c :: cs →
        t.get? name = none) (hs : Unfolds t cs s) : Unfolds t (c :: cs) (c :: s)

theorem unfolds_nil_iff : t.Unfolds [] s ↔ s = [] := by
  constructor
  · intro h
    generalize htext : ([] : List Char) = text at h
    cases h with
    | nil => rfl
    | reference => cases htext
    | other => cases htext
  · rintro rfl
    exact .nil

/-- A character is kept where no defined name is referred to. -/
theorem unfolds_cons_iff {c : Char} (h : ∀ name, Lexeme.IsTypeName name.toList →
    referenceTo name <+: c :: cs → t.get? name = none) :
    t.Unfolds (c :: cs) s ↔ ∃ r, s = c :: r ∧ t.Unfolds cs r := by
  constructor
  · intro hs
    generalize htext : c :: cs = text at hs
    cases hs with
    | nil => cases htext
    | @reference name definition _ _ _ hname hd =>
      have hprefix : referenceTo name <+: c :: cs := htext ▸ List.prefix_append _ _
      rw [h name hname hprefix] at hd
      cases hd
    | other _ hs =>
      obtain ⟨rfl, rfl⟩ := List.cons.inj htext
      exact ⟨_, rfl, hs⟩
  · rintro ⟨r, rfl, hs⟩
    exact .other h hs

theorem unfolds_cons_iff_of_not_begins {c : Char} (h : ¬ BeginsWithReference (c :: cs)) :
    t.Unfolds (c :: cs) s ↔ ∃ r, s = c :: r ∧ t.Unfolds cs r :=
  unfolds_cons_iff fun name hname hprefix => absurd ⟨name, hname, hprefix⟩ h

/-- A text without an opening angle bracket is kept in front of any other. -/
theorem unfolds_append_iff_of_notMem (hds : '<' ∉ ds) :
    t.Unfolds (ds ++ cs) s ↔ ∃ r, s = ds ++ r ∧ t.Unfolds cs r := by
  induction ds generalizing s with
  | nil => simp
  | cons d ds ih =>
    have hbegins : ¬ BeginsWithReference (d :: (ds ++ cs)) := by
      rintro ⟨name, -, hprefix⟩
      exact List.ne_of_not_mem_cons hds (List.cons_prefix_cons.mp hprefix).1
    rw [List.cons_append, unfolds_cons_iff_of_not_begins hbegins]
    simp only [ih (List.not_mem_of_not_mem_cons hds)]
    constructor
    · rintro ⟨_, rfl, r, rfl, hr⟩
      exact ⟨r, rfl, hr⟩
    · rintro ⟨r, rfl, hr⟩
      exact ⟨_, rfl, r, rfl, hr⟩

/-- A reference to a name without a definition is kept. -/
theorem unfolds_undefined_iff (hname : Lexeme.IsTypeName name.toList) (hd : t.get? name = none) :
    t.Unfolds (referenceTo name ++ cs) s ↔ ∃ r, s = referenceTo name ++ r ∧ t.Unfolds cs r := by
  have hfront : ∀ other, Lexeme.IsTypeName other.toList →
      referenceTo other <+: '<' :: (name.toList ++ ['>'] ++ cs) → t.get? other = none := by
    rintro other hothername ⟨rest, hrest⟩
    have hother : referenceTo other ++ rest = referenceTo name ++ cs := hrest
    obtain ⟨rfl, -⟩ := referenceTo_append_inj hothername hname hother
    exact hd
  rw [referenceTo, List.cons_append, unfolds_cons_iff hfront]
  simp only [unfolds_append_iff_of_notMem (notMem_name hname)]
  constructor
  · rintro ⟨_, rfl, r, rfl, hr⟩
    exact ⟨r, rfl, hr⟩
  · rintro ⟨r, rfl, hr⟩
    exact ⟨_, rfl, r, rfl, hr⟩

/-- A reference to a defined name is replaced. -/
theorem unfolds_defined_iff {definition : String} (hname : Lexeme.IsTypeName name.toList)
    (hd : t.get? name = some definition) : t.Unfolds (referenceTo name ++ cs) s ↔
      ∃ r q, s = '[' :: (r ++ ']' :: q) ∧ t.Unfolds definition.toList r ∧ t.Unfolds cs q := by
  constructor
  · intro hs
    generalize htext : referenceTo name ++ cs = text at hs
    cases hs with
    | nil => cases htext
    | @reference other definition' _ r q hother hd' hr hq =>
      obtain ⟨rfl, rfl⟩ := referenceTo_append_inj hname hother htext
      cases hd.symm.trans hd'
      exact ⟨r, q, rfl, hr, hq⟩
    | other h =>
      have hprefix := h name hname (htext ▸ List.prefix_append _ _)
      rw [hd] at hprefix
      cases hprefix
  · rintro ⟨r, q, rfl, hr, hq⟩
    exact .reference hname hd hr hq

/-- A text unfolds to one text at most. -/
theorem unfolds_unique (h : t.Unfolds cs r) : ∀ s, t.Unfolds cs s → s = r := by
  induction h with
  | nil => exact fun s hs => unfolds_nil_iff.mp hs
  | reference hname hd _ _ ihr ihs =>
    intro s hs
    obtain ⟨r', q, rfl, hr', hq⟩ := (unfolds_defined_iff hname hd).mp hs
    rw [ihr _ hr', ihs _ hq]
  | other h _ ih =>
    intro s hs
    obtain ⟨q, rfl, hq⟩ := (unfolds_cons_iff h).mp hs
    rw [ih _ hq]

/-! ## One pass -/

/-- Texts that are kept apart unfold each for itself. -/
theorem exists_of_unfolds_append (hapart : KeptApart cs rest) (h : t.Unfolds (cs ++ rest) s) :
    ∃ r q, s = r ++ q ∧ t.Unfolds cs r ∧ t.Unfolds rest q := by
  induction cs using referenceInduction generalizing s with
  | nil => exact ⟨[], s, rfl, .nil, h⟩
  | other c cs hc ih =>
    have hc' : ¬ BeginsWithReference (c :: (cs ++ rest)) := fun hbegins =>
      hc (hapart _ List.suffix_rfl (List.cons_ne_nil c cs) hbegins)
    obtain ⟨q, rfl, hq⟩ := (unfolds_cons_iff_of_not_begins hc').mp h
    obtain ⟨r, q, rfl, hr, hq⟩ := ih (hapart.of_suffix (List.suffix_cons c cs)) hq
    exact ⟨c :: r, q, rfl, (unfolds_cons_iff_of_not_begins hc).mpr ⟨r, rfl, hr⟩, hq⟩
  | reference name cs hname ih =>
    have hbehind : KeptApart cs rest := hapart.of_suffix (List.suffix_append _ cs)
    rw [List.append_assoc] at h
    cases hdefined : t.get? name with
    | none =>
      obtain ⟨q, rfl, hq⟩ := (unfolds_undefined_iff hname hdefined).mp h
      obtain ⟨r, q, rfl, hr, hq⟩ := ih hbehind hq
      exact ⟨referenceTo name ++ r, q, by rw [List.append_assoc],
        (unfolds_undefined_iff hname hdefined).mpr ⟨r, rfl, hr⟩, hq⟩
    | some definition =>
      obtain ⟨r', q, rfl, hr', hq⟩ := (unfolds_defined_iff hname hdefined).mp h
      obtain ⟨r, q, rfl, hr, hq⟩ := ih hbehind hq
      exact ⟨'[' :: (r' ++ ']' :: r), q, by simp, .reference hname hdefined hr' hr, hq⟩

/-- **A pass keeps what a text unfolds to.** -/
theorem unfolds_of_replaced (h : t.Unfolds (t.replaced cs) s) : t.Unfolds cs s := by
  induction cs using referenceInduction generalizing s with
  | nil => rwa [replaced_nil] at h
  | other c cs hc ih =>
    rw [replaced_cons hc,
      unfolds_cons_iff_of_not_begins (not_beginsWithReference_replaced hc)] at h
    obtain ⟨q, rfl, hq⟩ := h
    exact (unfolds_cons_iff_of_not_begins hc).mpr ⟨q, rfl, ih hq⟩
  | reference name cs hname ih =>
    cases hd : t.get? name with
    | none =>
      rw [replaced_undefined hname hd, unfolds_undefined_iff hname hd] at h
      obtain ⟨q, rfl, hq⟩ := h
      exact (unfolds_undefined_iff hname hd).mpr ⟨q, rfl, ih hq⟩
    | some definition =>
      rw [replaced_defined hname hd,
        unfolds_cons_iff_of_not_begins (not_beginsWithReference_of_ne (by decide))] at h
      obtain ⟨_, rfl, h⟩ := h
      obtain ⟨r, _, rfl, hr, h⟩ :=
        exists_of_unfolds_append (keptApart_separator (by decide) _ _) h
      obtain ⟨q, rfl, hq⟩ := (unfolds_cons_iff_of_not_begins
        (not_beginsWithReference_of_ne (by decide))).mp h
      exact .reference hname hd hr (ih hq)

/-- A text that refers to no defined name unfolds to itself. -/
theorem unfolds_self (h : ∀ name, RefersTo cs name → t.get? name = none) : t.Unfolds cs cs := by
  induction cs with
  | nil => exact .nil
  | cons c cs ih =>
    refine .other (fun name hname hprefix => h name ⟨hname, hprefix.isInfix⟩) (ih ?_)
    exact fun name hname => h name ⟨hname.1, List.infix_cons hname.2⟩

/-! ## All passes -/

/-- The names that a text refers to without a definition. -/
theorem mem_undefinedIn_iff {text : String} :
    name ∈ t.undefinedIn text ↔ RefersTo text.toList name ∧ t.get? name = none := by
  rw [undefinedIn, List.mem_filterMap, ← mem_fragmentsOf_iff]
  constructor
  · rintro ⟨f, hf, h⟩
    cases f with
    | other c => cases h
    | reference used =>
      by_cases hnone : (t.get? used).isNone
      · obtain rfl := Option.some.inj ((if_pos hnone).symm.trans h)
        exact ⟨hf, Option.isNone_iff_eq_none.mp hnone⟩
      · cases (if_neg hnone).symm.trans h
  · rintro ⟨hf, hnone⟩
    exact ⟨_, hf, if_pos (Option.isNone_iff_eq_none.mpr hnone)⟩

theorem mem_keys_foldl_insert {names : List String} {d : Dictionary Unit} :
    name ∈ (names.foldl (fun d name => d.insert name ()) d).keys ↔
      name ∈ d.keys ∨ name ∈ names := by
  induction names generalizing d with
  | nil => simp
  | cons first names ih =>
    rw [List.foldl_cons, ih, Dictionary.mem_keys_insert, List.mem_cons, or_assoc,
      or_left_comm, eq_comm]

/-- **What the passes come to** from a text, when some names without a definition have already been
seen: the text refers to no defined name any more, but still to those that have no definition, and
these have been added to the names. -/
structure Settled (t : TypeTable) (text : String) (seen : Dictionary Unit) (x : Expansion) :
    Prop where
  unfolds : t.Unfolds text.toList x.text.toList
  undefined : ∀ name, RefersTo x.text.toList name → t.get? name = none
  kept : ∀ name, RefersTo text.toList name → t.get? name = none → RefersTo x.text.toList name
  mem_unresolved : ∀ name, name ∈ x.unresolved ↔ name ∈ seen.keys ∨ RefersTo x.text.toList name
  ordered : x.unresolved.Pairwise (· < ·)

theorem settled_of_settle {x : Expansion} :
    ∀ {left passes : Nat} {seen : Dictionary Unit} {text : String},
      t.settle left passes seen text = some x → t.Settled text seen x
  | 0, _, _, _, h => by cases h
  | left + 1, passes, seen, text, h => by
    rw [settle] at h
    split at h
    · rename_i hsame
      have hnone := substitute_eq_self_iff.mp hsame
      cases h
      refine ⟨unfolds_self hnone, hnone, fun _ href _ => href, fun name => ?_,
        Dictionary.pairwise_keys _⟩
      rw [mem_keys_foldl_insert, mem_undefinedIn_iff, and_iff_left_of_imp (hnone name)]
    · have hrest := settled_of_settle h
      have hkept : ∀ name, RefersTo text.toList name → t.get? name = none →
          RefersTo x.text.toList name := fun name href hnone =>
        hrest.kept name (refersTo_substitute_iff.mpr (.inl ⟨href, hnone⟩)) hnone
      refine ⟨unfolds_of_replaced (toList_substitute text ▸ hrest.unfolds), hrest.undefined, hkept,
        fun name => ?_, hrest.ordered⟩
      rw [hrest.mem_unresolved, mem_keys_foldl_insert, mem_undefinedIn_iff, or_assoc,
        or_iff_right_of_imp (a := _ ∧ _) fun href => hkept name href.1 href.2]

/-- An expansion that succeeds has settled, from no names at all, and took a pass at least. -/
theorem settled_of_expand {e : String} {x : Expansion} (h : t.expand e = .ok x) :
    t.Settled e .empty x ∧ 0 < t.maxPasses := by
  rw [expand] at h
  cases hs : t.settle t.maxPasses 0 .empty e with
  | none => rw [hs] at h; cases h
  | some y =>
    rw [hs] at h
    cases h
    refine ⟨settled_of_settle hs, Nat.pos_of_ne_zero fun hzero => ?_⟩
    rw [hzero] at hs
    cases hs

/-- The names that an expansion reports are those that its text refers to. -/
theorem mem_unresolved_iff {e : String} {x : Expansion} (h : t.expand e = .ok x) :
    name ∈ x.unresolved ↔ RefersTo x.text.toList name := by
  rw [(settled_of_expand h).1.mem_unresolved, or_iff_right]
  exact List.not_mem_nil

/-- A text that refers to no defined name is its own expansion. -/
theorem expand_self {text : String} (hpos : 0 < t.maxPasses)
    (h : ∀ name, RefersTo text.toList name → t.get? name = none) :
    ∃ names, t.expand text = .ok ⟨text, names, 0⟩ := by
  obtain ⟨left, hleft⟩ := Nat.exists_eq_succ_of_ne_zero hpos.ne'
  rw [expand, hleft, settle, if_pos (substitute_eq_self_iff.mpr h)]
  exact ⟨_, rfl⟩

/-- **What an expansion gives.** Its text is the only one that the expression unfolds to, and refers
to no defined name. The names it reports are those that its text refers to, in increasing order. To
expand it again changes neither. -/
theorem expand_unfolds {e : String} {x : Expansion} (h : t.expand e = .ok x) :
    (t.Unfolds e.toList x.text.toList ∧ ∀ s, t.Unfolds e.toList s → s = x.text.toList) ∧
    (∀ name, RefersTo x.text.toList name → t.get? name = none) ∧
    (x.unresolved.Pairwise (· < ·) ∧
      ∀ name, name ∈ x.unresolved ↔ RefersTo x.text.toList name) ∧
    t.expand x.text = .ok { x with passes := 0 } := by
  obtain ⟨hx, hpos⟩ := settled_of_expand h
  refine ⟨⟨hx.unfolds, unfolds_unique hx.unfolds⟩, hx.undefined,
    ⟨hx.ordered, fun _ => mem_unresolved_iff h⟩, ?_⟩
  obtain ⟨names, hagain⟩ := expand_self hpos hx.undefined
  have hnames : names = x.unresolved := by
    refine (settled_of_expand hagain).1.ordered.eq_of_mem_iff hx.ordered fun name => ?_
    exact (mem_unresolved_iff hagain).trans (mem_unresolved_iff h).symm
  rw [hagain, hnames]

/-- Definitions that are no expressions, in a text that is none: the angle brackets around what they
come to make no reference of it. -/
theorem expand_unfolds_unreadable :
    ∃ (t : TypeTable) (x : Expansion), t.expand "<<a>b> <d>" = .ok x ∧
      x.text = "<[[<]>]b> <d>" ∧ x.unresolved = ["d"] ∧
      (∀ s, t.Unfolds "<<a>b> <d>".toList s → s = x.text.toList) ∧
      t.expand x.text = .ok { x with passes := 0 } := by
  have hx : (ofList [("a", "<c>>"), ("b", "y"), ("c", "<")]).expand "<<a>b> <d>" =
      .ok ⟨"<[[<]>]b> <d>", ["d"], 2⟩ := by
    decide +kernel
  obtain ⟨⟨-, hunique⟩, -, -, hagain⟩ := expand_unfolds hx
  exact ⟨_, _, hx, rfl, rfl, hunique, hagain⟩

end ValueGrammar.TypeTable
