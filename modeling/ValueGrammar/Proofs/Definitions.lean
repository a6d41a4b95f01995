import Mathlib.Data.List.Induction
import Mathlib.Data.List.TakeWhile
import ValueGrammar.Proofs.Lexeme
import ValueGrammar.TypeTable

/-!
# Type definitions as text

`Declares` says what a definition means without cutting it: in front of its first `=` a name stands
among blanks and angle brackets, and behind it an expression among blanks. The name is not empty and
has no blank and no bracket at its ends.

Reading drops the blanks around the name first and the brackets afterwards, and the name is looked
at in between. So what is declared is read if the brackets hold something that has no blank at its
ends: the definition is tidy. The first definition that declares nothing ends the reading, so behind
it any other may stand.

Headlines:
* **`strip_eq_iff`**: stripping finds what stands among characters of a class.
* **`mapM_eq_error_iff`**: a list of computations fails as its first failure does.
* **`get?_parse_iff`**: the last definition of a name counts.
* **`reads_declared_iff_tidy`**: definitions are read as they are declared exactly if the first one
  that declares nothing is tidy, or all of them are.
* **`empty_name_is_defined`**: brackets around nothing define the empty name.
-/

namespace ValueGrammar

/-! ## Stripping -/

namespace Text

variable {p q : Char → Bool} {cs inner : List Char}

/-- A text has no character of a class at its ends. -/
def IsBare (p : Char → Bool) (cs : List Char) : Prop := Stops p cs ∧ Stops p cs.reverse

instance (p : Char → Bool) (cs : List Char) : Decidable (Stops p cs) :=
  decidable_of_iff (cs.head?.all (fun c => !p c) = true) (by cases cs <;> simp [Stops])

instance (p : Char → Bool) (cs : List Char) : Decidable (IsBare p cs) :=
  inferInstanceAs (Decidable (Stops p cs ∧ Stops p cs.reverse))

/-- **What stands among characters of a class**: they are all that is around it, and it has none of
them at its ends. -/
structure StandsAmong (p : Char → Bool) (inner cs : List Char) : Prop where
  around : ∃ before after, cs = before ++ inner ++ after ∧ (∀ c ∈ before, p c = true) ∧
    ∀ c ∈ after, p c = true
  bare : IsBare p inner

theorem stops_append_of_ne_nil {rest : List Char} (hne : cs ≠ []) (h : Stops p cs) :
    Stops p (cs ++ rest) := by
  cases cs with
  | nil => exact absurd rfl hne
  | cons c cs => exact h

/-- The front of a text that does not begin with a character of a class does not either. -/
theorem stops_of_append {rest : List Char} (h : Stops p (cs ++ rest)) : Stops p cs := by
  intro c hc
  cases cs with
  | nil => cases hc
  | cons d cs => exact h c hc

/-- Stripping finds what stands among characters of a class. -/
theorem strip_eq_iff : strip p cs = inner ↔ StandsAmong p inner cs := by
  constructor
  · rintro rfl
    refine ⟨⟨_, _, (takeWhile_append_strip p cs).symm, forall_mem_takeWhile p cs, ?_⟩, ?_, ?_⟩
    · intro c hc
      exact forall_mem_takeWhile p _ c (List.mem_reverse.mp hc)
    · -- what is dropped at the end does not change the first character that stays
      have hkept : strip p cs ++ ((cs.dropWhile p).reverse.takeWhile p).reverse =
          cs.dropWhile p := by
        rw [strip, ← List.reverse_append, List.takeWhile_append_dropWhile, List.reverse_reverse]
      have hstops := stops_dropWhile p cs
      rw [← hkept] at hstops
      exact stops_of_append hstops
    · rw [strip, List.reverse_reverse]
      exact stops_dropWhile p _
  · rintro ⟨⟨before, after, rfl, hbefore, hafter⟩, hhead, hlast⟩
    by_cases hne : inner = []
    · subst hne
      have hall : (before ++ [] ++ after).dropWhile p = [] := by
        rw [List.dropWhile_eq_nil_iff]
        intro c hc
        simp only [List.append_nil, List.mem_append] at hc
        exact hc.elim (hbefore c) (hafter c)
      rw [strip, hall]
      rfl
    · have hfront : (before ++ inner ++ after).dropWhile p = inner ++ after := by
        rw [List.append_assoc]
        exact dropWhile_append_of_stops hbefore (stops_append_of_ne_nil hne hhead)
      have hback : (inner ++ after).reverse.dropWhile p = inner.reverse := by
        rw [List.reverse_append]
        refine dropWhile_append_of_stops (fun c hc => hafter c (List.mem_reverse.mp hc)) hlast
      rw [strip, hfront, hback, List.reverse_reverse]

/-- A text that stands among characters of a class, and in which another one stands among
characters of a second class. -/
theorem StandsAmong.trans {outer : List Char} (h : StandsAmong p inner cs)
    (ho : StandsAmong q cs outer) (hbare : IsBare q inner) :
    StandsAmong (fun c => q c || p c) inner outer := by
  obtain ⟨before, after, rfl, hbefore, hafter⟩ := h.around
  obtain ⟨left, right, rfl, hleft, hright⟩ := ho.around
  refine ⟨⟨left ++ before, after ++ right, by simp, ?_, ?_⟩, ?_, ?_⟩
  · intro c hc
    rcases List.mem_append.mp hc with hc | hc
    · simp [hleft c hc]
    · simp [hbefore c hc]
  · intro c hc
    rcases List.mem_append.mp hc with hc | hc
    · simp [hafter c hc]
    · simp [hright c hc]
  · intro c hc
    simp [h.bare.1 c hc, hbare.1 c hc]
  · intro c hc
    simp [h.bare.2 c hc, hbare.2 c hc]

end Text

/-! ## Lists of computations -/

section Computations

variable {α β ε : Type} {f : α → Except ε β}

/-- Some things up to the first one that does not have a property. -/
def IsFirstWithout (P : α → Prop) (a : α) (as : List α) : Prop :=
  ∃ before after, as = before ++ a :: after ∧ (∀ b ∈ before, P b) ∧ ¬ P a

theorem IsFirstWithout.not {P : α → Prop} {a : α} {as : List α} (h : IsFirstWithout P a as) :
    ¬ P a := by
  obtain ⟨-, -, -, -, hnot⟩ := h
  exact hnot

theorem IsFirstWithout.mem {P : α → Prop} {a : α} {as : List α} (h : IsFirstWithout P a as) :
    a ∈ as := by
  obtain ⟨before, after, rfl, -⟩ := h
  exact List.mem_append_right _ List.mem_cons_self

theorem isFirstWithout_nil {P : α → Prop} {a : α} : ¬ IsFirstWithout P a [] := by
  rintro ⟨before, after, h, -⟩
  cases before <;> cases h

theorem isFirstWithout_cons_iff {P : α → Prop} {a b : α} {as : List α} :
    IsFirstWithout P a (b :: as) ↔ (b = a ∧ ¬ P a) ∨ (P b ∧ IsFirstWithout P a as) := by
  constructor
  · rintro ⟨before, after, h, hbefore, ha⟩
    cases before with
    | nil =>
      cases h
      exact .inl ⟨rfl, ha⟩
    | cons c before =>
      cases h
      obtain ⟨hb, hbefore⟩ := List.forall_mem_cons.mp hbefore
      exact .inr ⟨hb, before, after, rfl, hbefore, ha⟩
  · rintro (⟨rfl, ha⟩ | ⟨hb, before, after, rfl, hbefore, ha⟩)
    · exact ⟨[], as, rfl, List.forall_mem_nil _, ha⟩
    · exact ⟨b :: before, after, rfl, List.forall_mem_cons.mpr ⟨hb, hbefore⟩, ha⟩

/-- Of two properties the weaker one is missing first where the stronger one is, if it is missing
there at all. -/
theorem isFirstWithout_iff_of_imp {P Q : α → Prop} (himp : ∀ a, P a → Q a) {a : α} {as : List α}
    (hfirst : ∀ b, IsFirstWithout P b as → ¬ Q b) :
    IsFirstWithout Q a as ↔ IsFirstWithout P a as := by
  induction as with
  | nil => simp only [isFirstWithout_nil]
  | cons b as ih =>
    simp only [isFirstWithout_cons_iff] at hfirst ⊢
    by_cases hb : P b
    · have hrest := ih fun c hc => hfirst c (.inr ⟨hb, hc⟩)
      have hQ := himp b hb
      rw [hrest]
      constructor
      · rintro (⟨rfl, hnot⟩ | ⟨-, h⟩)
        · exact absurd hQ hnot
        · exact .inr ⟨hb, h⟩
      · rintro (⟨rfl, hnot⟩ | ⟨-, h⟩)
        · exact absurd hb hnot
        · exact .inr ⟨hQ, h⟩
    · have hnot := hfirst b (.inl ⟨rfl, hb⟩)
      constructor
      · rintro (⟨rfl, -⟩ | ⟨hQ, -⟩)
        · exact .inl ⟨rfl, hb⟩
        · exact absurd hQ hnot
      · rintro (⟨rfl, -⟩ | ⟨hP, -⟩)
        · exact .inl ⟨rfl, hnot⟩
        · exact absurd hP hb

/-- What the last of some things gives that gives anything. -/
def IsLastGiven (R : α → β → Prop) (b : β) (as : List α) : Prop :=
  ∃ before a after, as = before ++ a :: after ∧ R a b ∧ ∀ x ∈ after, ∀ other, ¬ R x other

theorem isLastGiven_congr {R S : α → β → Prop} {b : β} {as : List α}
    (h : ∀ a ∈ as, ∀ b, R a b ↔ S a b) : IsLastGiven R b as ↔ IsLastGiven S b as := by
  refine exists_congr fun before => exists_congr fun a => exists_congr fun after =>
    and_congr_right ?_
  rintro rfl
  refine and_congr (h a (by simp) b) (forall₂_congr fun x hx => forall_congr' fun other => ?_)
  exact not_congr (h x (by simp [hx]) other)

/-- If something is given at all, there is what is given last. -/
theorem exists_isLastGiven {R : α → β → Prop} {a : α} {b : β} (hR : R a b) :
    ∀ {as : List α}, a ∈ as → ∃ last, IsLastGiven R last as
  | [], h => nomatch h
  | c :: as, h => by
    by_cases hlater : ∃ x ∈ as, ∃ other, R x other
    · obtain ⟨x, hx, other, hother⟩ := hlater
      obtain ⟨last, before, y, after, rfl, hy, hafter⟩ := exists_isLastGiven hother hx
      exact ⟨last, c :: before, y, after, rfl, hy, hafter⟩
    · have hnone : ∀ x ∈ as, ∀ other, ¬ R x other := fun x hx other hother =>
        hlater ⟨x, hx, other, hother⟩
      rcases List.mem_cons.mp h with rfl | ha
      · exact ⟨b, [], a, as, rfl, hR, hnone⟩
      · exact absurd hR (hnone a ha b)

/-- A list of computations fails as its first failure does. -/
theorem mapM_eq_error_iff {e : ε} : ∀ {as : List α}, as.mapM f = .error e ↔
    ∃ a, f a = .error e ∧ IsFirstWithout (fun a => ∃ b, f a = .ok b) a as
  | [] => by
    simp only [isFirstWithout_nil, and_false, exists_false, iff_false]
    rintro ⟨⟩
  | a :: as => by
    simp only [List.mapM_cons, isFirstWithout_cons_iff]
    cases ha : f a with
    | error e' =>
      constructor
      · rintro ⟨⟩
        exact ⟨a, ha, .inl ⟨rfl, by simp [ha]⟩⟩
      · rintro ⟨a', ha', ⟨rfl, -⟩ | ⟨⟨b, hb⟩, -⟩⟩
        · exact congrArg _ (Except.error.inj (ha.symm.trans ha'))
        · cases hb
    | ok b =>
      have hrest :
          ((Except.ok b : Except ε β) >>= fun b => as.mapM f >>= fun bs => pure (b :: bs)) =
          .error e ↔ as.mapM f = .error e := by
        cases as.mapM f <;> simp [bind, Except.bind, pure, Except.pure]
      rw [hrest, mapM_eq_error_iff]
      constructor
      · rintro ⟨a', ha', hfirst⟩
        exact ⟨a', ha', .inr ⟨⟨b, rfl⟩, hfirst⟩⟩
      · rintro ⟨a', ha', ⟨rfl, hnot⟩ | ⟨-, hfirst⟩⟩
        · exact absurd ⟨b, ha⟩ hnot
        · exact ⟨a', ha', hfirst⟩

end Computations

/-! ## Dictionaries -/

namespace Dictionary

variable {α β : Type}

theorem ofList_concat (entries : List (String × β)) (e : String × β) :
    ofList (entries ++ [e]) = (ofList entries).insert e.1 e.2 := by
  simp [ofList]

/-- Of the entries that some things give, the last one under a key counts. -/
theorem get?_ofList_filterMap (f : α → Option (String × β)) (key : String) (value : β)
    (as : List α) : (ofList (as.filterMap f)).get? key = some value ↔
      IsLastGiven (fun a value => f a = some (key, value)) value as := by
  have hlast : ∀ as : List α, (ofList (as.filterMap f)).get? key =
      as.reverse.findSome? fun a => (f a).bind fun e => if e.1 = key then some e.2 else none := by
    intro as
    induction as using List.reverseRecOn with
    | nil => rfl
    | append_singleton as a ih =>
      rw [List.filterMap_append, List.reverse_append, List.reverse_singleton, List.singleton_append,
        List.findSome?_cons, ← ih]
      cases ha : f a with
      | none => simp [ha]
      | some e =>
        rw [List.filterMap_cons_some ha, List.filterMap_nil, ofList_concat, get?_insert]
        by_cases he : e.1 = key <;> simp [he]
  rw [hlast, List.findSome?_eq_some_iff]
  constructor
  · rintro ⟨after, a, before, has, ha, hafter⟩
    refine ⟨before.reverse, a, after.reverse, ?_, ?_, ?_⟩
    · rw [← List.reverse_reverse as, has]
      simp
    · obtain ⟨⟨k, v⟩, he, hvalue⟩ := Option.bind_eq_some_iff.mp ha
      obtain ⟨hk, hv⟩ := Option.ite_none_right_eq_some.mp hvalue
      cases hk
      cases hv
      exact he
    · intro x hx other hother
      have hnone := hafter x (List.mem_reverse.mp hx)
      simp [hother] at hnone
  · rintro ⟨before, a, after, rfl, ha, hafter⟩
    refine ⟨after.reverse, a, before.reverse, by simp, by simp [ha], ?_⟩
    intro x hx
    cases hfx : f x with
    | none => rfl
    | some e =>
      have hne : e.1 ≠ key := by
        rintro rfl
        exact hafter x (List.mem_reverse.mp hx) e.2 hfx
      simp [hne]

end Dictionary

/-! ## One definition -/

open Text

/-- Angle brackets. -/
def Text.isAngle (c : Char) : Bool := c = '<' || c = '>'

/-- What may stand around a name. -/
def Text.isMargin (c : Char) : Bool := isBlank c || isAngle c

/-- **What a definition declares**: a name among blanks and angle brackets in front of the first
`=`, and an expression among blanks behind it. -/
structure Declares (definition name expression : String) : Prop where
  parts : ∃ left right, definition.toList = left ++ '=' :: right ∧ '=' ∉ left ∧
    StandsAmong isMargin name.toList left ∧ StandsAmong isBlank expression.toList right
  named : name ≠ ""

/-- Whether a definition declares anything: it has a `=`, and a name in front of it. -/
def IsDeclaration (definition : String) : Prop :=
  ∃ name expression, Declares definition name expression

/-- Whether a definition is **tidy**: unless there are only blanks in front of the first `=`, the
brackets there hold something, and no blank is at its ends. -/
def IsTidy (definition : String) : Prop :=
  let left := strip isBlank (definition.toList.takeWhile (· ≠ '='))
  '=' ∈ definition.toList → left ≠ [] →
    strip isAngle left ≠ [] ∧ IsBare isBlank (strip isAngle left)

instance (definition : String) : Decidable (IsTidy definition) := by
  unfold IsTidy
  infer_instance

section One

variable {definition name expression : String} {left right : List Char}

theorem parseDefinition?_of_notMem (h : '=' ∉ definition.toList) :
    parseDefinition? definition = none := by
  have hdrop : definition.toList.dropWhile (· ≠ '=') = [] := by
    rw [List.dropWhile_eq_nil_iff]
    intro c hc
    refine decide_eq_true fun hc' => h ?_
    exact hc' ▸ hc
  rw [parseDefinition?, hdrop]

/-- The two sides of the first `=`. -/
theorem split_eq (h : definition.toList = left ++ '=' :: right) (hleft : '=' ∉ left) :
    definition.toList.takeWhile (· ≠ '=') = left ∧
      definition.toList.dropWhile (· ≠ '=') = '=' :: right := by
  have hall : ∀ c ∈ left, decide (c ≠ '=') = true := by
    intro c hc
    refine decide_eq_true fun hc' => hleft ?_
    exact hc' ▸ hc
  have hstop : Stops (· ≠ '=') ('=' :: right) := by
    intro c hc
    cases hc
    rfl
  rw [h]
  exact ⟨takeWhile_append_of_stops hall hstop, dropWhile_append_of_stops hall hstop⟩

/-- A definition is read apart at its first `=`. -/
theorem parseDefinition?_of_split (h : definition.toList = left ++ '=' :: right)
    (hleft : '=' ∉ left) : parseDefinition? definition =
      if strip isBlank left = [] then none
      else some (String.ofList (strip isAngle (strip isBlank left)),
        String.ofList (strip isBlank right)) := by
  rw [parseDefinition?, (split_eq h hleft).1, (split_eq h hleft).2]
  rfl

theorem isTidy_iff_of_split (h : definition.toList = left ++ '=' :: right) (hleft : '=' ∉ left) :
    IsTidy definition ↔ (strip isBlank left ≠ [] → strip isAngle (strip isBlank left) ≠ [] ∧
      IsBare isBlank (strip isAngle (strip isBlank left))) := by
  have hmem : '=' ∈ definition.toList := by
    rw [h]
    simp
  rw [IsTidy, (split_eq h hleft).1]
  exact ⟨fun htidy => htidy hmem, fun htidy _ => htidy⟩

theorem exists_split_of_parseDefinition? {pair : String × String}
    (h : parseDefinition? definition = some pair) :
    ∃ left right, definition.toList = left ++ '=' :: right ∧ '=' ∉ left ∧
      strip isBlank left ≠ [] ∧
      pair = (String.ofList (strip isAngle (strip isBlank left)),
        String.ofList (strip isBlank right)) := by
  by_cases hmem : '=' ∈ definition.toList
  · obtain ⟨left, right, hsplit, hleft⟩ := List.eq_append_cons_of_mem hmem
    rw [parseDefinition?_of_split hsplit hleft] at h
    obtain ⟨hne, h⟩ := Option.ite_none_left_eq_some.mp h
    exact ⟨left, right, hsplit, hleft, hne, (Option.some.inj h).symm⟩
  · rw [parseDefinition?_of_notMem hmem] at h
    cases h

/-- What stands among blanks and brackets is found by the two strippings of a tidy definition. -/
theorem standsAmong_margin
    (hbare : IsBare isBlank (strip isAngle (strip isBlank left))) :
    StandsAmong isMargin (strip isAngle (strip isBlank left)) left :=
  (strip_eq_iff.mp rfl).trans (strip_eq_iff.mp rfl) hbare

/-- Where there are only blanks, nothing stands among blanks and brackets. -/
theorem eq_nil_of_standsAmong_margin {inner : List Char} (h : StandsAmong isMargin inner left)
    (hblank : strip isBlank left = []) : inner = [] := by
  obtain ⟨before, after, rfl, -, -⟩ := h.around
  obtain ⟨⟨left, right, hsplit, hleft, hright⟩, -⟩ := strip_eq_iff.mp hblank
  cases inner with
  | nil => rfl
  | cons c cs =>
    have hc : c ∈ left ++ [] ++ right := by
      rw [← hsplit]
      simp
    have hcblank : isBlank c = true := by
      rcases List.mem_append.mp (List.append_nil left ▸ hc) with hc | hc
      · exact hleft c hc
      · exact hright c hc
    have hcmargin : isMargin c = false := h.bare.1 c rfl
    simp [isMargin, hcblank] at hcmargin

/-- A tidy definition is read as what it declares. -/
theorem parseDefinition?_eq_some_iff (h : IsTidy definition) :
    parseDefinition? definition = some (name, expression) ↔
      Declares definition name expression := by
  constructor
  · intro hparse
    obtain ⟨left, right, hsplit, hleft, hne, hpair⟩ := exists_split_of_parseDefinition? hparse
    obtain ⟨hinner, hbare⟩ := (isTidy_iff_of_split hsplit hleft).mp h hne
    cases hpair
    refine ⟨⟨left, right, hsplit, hleft, ?_, ?_⟩, ?_⟩
    · rw [String.toList_ofList]
      exact standsAmong_margin hbare
    · rw [String.toList_ofList]
      exact strip_eq_iff.mp rfl
    · intro hempty
      exact hinner (by simpa using congrArg String.toList hempty)
  · rintro ⟨⟨left, right, hsplit, hleft, hname, hexpression⟩, hnamed⟩
    have hne : strip isBlank left ≠ [] := fun hblank =>
      hnamed (String.toList_inj.mp (eq_nil_of_standsAmong_margin hname hblank))
    obtain ⟨-, hbare⟩ := (isTidy_iff_of_split hsplit hleft).mp h hne
    have hinner : strip isAngle (strip isBlank left) = name.toList :=
      (strip_eq_iff.mpr (standsAmong_margin hbare)).symm.trans (strip_eq_iff.mpr hname)
    rw [parseDefinition?_of_split hsplit hleft, if_neg hne, hinner, strip_eq_iff.mpr hexpression,
      String.ofList_toList, String.ofList_toList]

/-- Whatever declares something is read as something. -/
theorem exists_parseDefinition?_of_declaration (h : IsDeclaration definition) :
    ∃ pair, parseDefinition? definition = some pair := by
  obtain ⟨name, expression, ⟨left, right, hsplit, hleft, hname, -⟩, hnamed⟩ := h
  have hne : strip isBlank left ≠ [] := fun hblank =>
    hnamed (String.toList_inj.mp (eq_nil_of_standsAmong_margin hname hblank))
  exact ⟨_, (parseDefinition?_of_split hsplit hleft).trans (if_neg hne)⟩

/-- What is not read is tidy: there is no `=`, or there are only blanks in front of it. -/
theorem isTidy_of_parseDefinition?_eq_none (h : parseDefinition? definition = none) :
    IsTidy definition := by
  intro hmem hne
  obtain ⟨left, right, hsplit, hleft⟩ := List.eq_append_cons_of_mem hmem
  rw [(split_eq hsplit hleft).1] at hne
  rw [parseDefinition?_of_split hsplit hleft, if_neg hne] at h
  cases h

/-- What is read under a name that can be declared is tidy. -/
theorem isTidy_of_bare_name (h : parseDefinition? definition = some (name, expression))
    (hnamed : name ≠ "") (hbare : IsBare isMargin name.toList) : IsTidy definition := by
  obtain ⟨left, right, hsplit, hleft, -, hpair⟩ := exists_split_of_parseDefinition? h
  cases hpair
  rw [String.toList_ofList] at hbare
  refine (isTidy_iff_of_split hsplit hleft).mpr fun _ => ⟨fun hnil => hnamed (by rw [hnil]), ?_, ?_⟩
  · intro c hc
    exact (Bool.or_eq_false_iff.mp (hbare.1 c hc)).1
  · intro c hc
    exact (Bool.or_eq_false_iff.mp (hbare.2 c hc)).1

end One

/-! ## Several definitions -/

/-- **Definitions are read as they are declared**: reading fails with the first one that declares
nothing, and otherwise a name stands for what the last definition of it declares. -/
structure ReadsDeclared (definitions : List String) : Prop where
  error_iff : ∀ d, TypeTable.parse definitions = .error d ↔
    IsFirstWithout IsDeclaration d definitions
  table : (∀ d ∈ definitions, IsDeclaration d) →
    ∃ t, TypeTable.parse definitions = .ok t ∧ ∀ name expression,
      t.get? name = some expression ↔
        IsLastGiven (fun d expression => Declares d name expression) expression definitions

namespace TypeTable

variable {definitions : List String}

/-- One definition, or itself as an error. -/
def parseOne (definition : String) : Except String (String × String) :=
  match parseDefinition? definition with
  | some pair => .ok pair
  | none => .error definition

theorem parseOne_eq_ok_iff {d : String} {pair : String × String} :
    parseOne d = .ok pair ↔ parseDefinition? d = some pair := by
  unfold parseOne
  cases parseDefinition? d <;> simp

theorem eq_of_parseOne_eq_error {d e : String} (h : parseOne d = .error e) : d = e := by
  unfold parseOne at h
  cases hd : parseDefinition? d with
  | none => exact Except.error.inj (by rwa [hd] at h)
  | some pair =>
    rw [hd] at h
    cases h

theorem parse_eq (definitions : List String) :
    parse definitions = (definitions.mapM parseOne).map .ofList := rfl

/-- Reading fails with the first definition that cannot be read. -/
theorem parse_eq_error_iff {d : String} : parse definitions = .error d ↔
    IsFirstWithout (fun x => ∃ pair, parseDefinition? x = some pair) d definitions := by
  have hmap : parse definitions = .error d ↔ definitions.mapM parseOne = .error d := by
    rw [parse_eq]
    cases definitions.mapM parseOne <;> simp [Except.map]
  rw [hmap, mapM_eq_error_iff]
  simp only [parseOne_eq_ok_iff]
  constructor
  · rintro ⟨x, hx, hfirst⟩
    exact eq_of_parseOne_eq_error hx ▸ hfirst
  · intro hfirst
    refine ⟨d, ?_, hfirst⟩
    obtain ⟨-, -, -, -, hd⟩ := hfirst
    cases hone : parseOne d with
    | error e => rw [eq_of_parseOne_eq_error hone]
    | ok pair => exact absurd ⟨pair, parseOne_eq_ok_iff.mp hone⟩ hd

/-- Definitions that can all be read make a table, in which the last definition of a name counts. -/
theorem get?_parse_iff (h : ∀ d ∈ definitions, ∃ pair, parseDefinition? d = some pair) :
    ∃ t, parse definitions = .ok t ∧ ∀ name expression, t.get? name = some expression ↔
      IsLastGiven (fun d expression => parseDefinition? d = some (name, expression)) expression
        definitions := by
  refine ⟨.ofList (definitions.filterMap parseDefinition?), ?_, fun name expression =>
    Dictionary.get?_ofList_filterMap parseDefinition? name expression definitions⟩
  have hpairs : definitions.mapM parseOne = .ok (definitions.filterMap parseDefinition?) := by
    induction definitions with
    | nil => rfl
    | cons d ds ih =>
      obtain ⟨⟨pair, hpair⟩, hds⟩ := List.forall_mem_cons.mp h
      rw [List.mapM_cons, parseOne_eq_ok_iff.mpr hpair, ih hds, List.filterMap_cons_some hpair]
      rfl
  rw [parse_eq, hpairs]
  rfl

end TypeTable

section Several

variable {definitions : List String}

/-- Tidy definitions are read as they are declared; if one of them declares nothing, only the first
of these must be tidy. -/
theorem readsDeclared_of_tidy
    (hfirst : ∀ d, IsFirstWithout IsDeclaration d definitions → IsTidy d)
    (hall : (∀ d ∈ definitions, IsDeclaration d) → ∀ d ∈ definitions, IsTidy d) :
    ReadsDeclared definitions := by
  refine ⟨fun d => TypeTable.parse_eq_error_iff.trans ?_, fun hdeclared => ?_⟩
  · refine isFirstWithout_iff_of_imp (fun _ => exists_parseDefinition?_of_declaration) ?_
    rintro d hd ⟨⟨name, expression⟩, hread⟩
    exact hd.not ⟨name, expression, (parseDefinition?_eq_some_iff (hfirst d hd)).mp hread⟩
  · obtain ⟨t, ht, hget⟩ := TypeTable.get?_parse_iff fun d hd =>
      exists_parseDefinition?_of_declaration (hdeclared d hd)
    refine ⟨t, ht, fun name expression => (hget name expression).trans ?_⟩
    exact isLastGiven_congr fun d hd _ => parseDefinition?_eq_some_iff (hall hdeclared d hd)

/-- The definition that is the error is tidy if definitions are read as they are declared. -/
theorem isTidy_of_isFirstWithout (h : ReadsDeclared definitions) {d : String}
    (hd : IsFirstWithout IsDeclaration d definitions) : IsTidy d := by
  have hunread := (TypeTable.parse_eq_error_iff.mp ((h.error_iff d).mpr hd)).not
  exact isTidy_of_parseDefinition?_eq_none (Option.eq_none_iff_forall_ne_some.mpr fun pair hpair =>
    hunread ⟨pair, hpair⟩)

/-- Definitions that all declare something are tidy if they are read so: a name that is read is one
that is declared. -/
theorem isTidy_of_forall (h : ReadsDeclared definitions)
    (hdeclared : ∀ d ∈ definitions, IsDeclaration d) : ∀ d ∈ definitions, IsTidy d := by
  intro d hd
  obtain ⟨t, ht, hget⟩ := TypeTable.get?_parse_iff fun d hd =>
    exists_parseDefinition?_of_declaration (hdeclared d hd)
  obtain ⟨u, hu, hdeclares⟩ := h.table hdeclared
  obtain rfl : t = u := Except.ok.inj (ht.symm.trans hu)
  obtain ⟨⟨name, expression⟩, hread⟩ := exists_parseDefinition?_of_declaration (hdeclared d hd)
  obtain ⟨last, hlast⟩ := exists_isLastGiven
    (R := fun d expression => parseDefinition? d = some (name, expression)) hread hd
  obtain ⟨_, d', _, _, ⟨⟨_, _, _, _, hname, _⟩, hnamed⟩, _⟩ :=
    (hdeclares name last).mp ((hget name last).mpr hlast)
  exact isTidy_of_bare_name hread hnamed hname.bare

/-- A definition that is read by itself as it is declared is tidy. -/
theorem isTidy_of_singleton {d : String} (h : ReadsDeclared [d]) : IsTidy d := by
  by_cases hd : IsDeclaration d
  · exact isTidy_of_forall h (List.forall_mem_singleton.mpr hd) d List.mem_cons_self
  · exact isTidy_of_isFirstWithout h ⟨[], [], rfl, List.forall_mem_nil _, hd⟩

/-- **Reading definitions.** Definitions are read as they are declared exactly if the first one that
declares nothing is tidy, or all of them are if there is no such one. -/
theorem reads_declared_iff_tidy (definitions : List String) : ReadsDeclared definitions ↔
    (∀ d, IsFirstWithout IsDeclaration d definitions → IsTidy d) ∧
      ((∀ d ∈ definitions, IsDeclaration d) → ∀ d ∈ definitions, IsTidy d) :=
  ⟨fun h => ⟨fun _ => isTidy_of_isFirstWithout h, isTidy_of_forall h⟩,
    fun h => readsDeclared_of_tidy h.1 h.2⟩

end Several

/-- The second definition of a name counts, from its first `=` on, and the third one has no name. -/
theorem reads_declared_iff_tidy_overridden :
    let definitions := ["<width> = thin", "\u00a0width =1 = 2 ", "=x", "< y"]
    (∀ d ∈ definitions, IsTidy d) ∧ TypeTable.parse definitions = .error "=x" ∧
      IsFirstWithout IsDeclaration "=x" definitions ∧
      ∃ t, TypeTable.parse (definitions.take 2) = .ok t ∧ t.get? "width" = some "1 = 2" ∧
        Declares "\u00a0width =1 = 2 " "width" "1 = 2" := by
  intro definitions
  have htidy : ∀ d ∈ definitions, IsTidy d := by decide +kernel
  have herror : TypeTable.parse definitions = .error "=x" := by
    rw [TypeTable.parse_eq,
      show definitions.mapM TypeTable.parseOne = .error "=x" by decide +kernel]
    rfl
  have hread := (reads_declared_iff_tidy definitions).mpr ⟨fun d hd => htidy d hd.mem,
    fun _ => htidy⟩
  have hfront := (reads_declared_iff_tidy (definitions.take 2)).mpr
    ⟨fun d hd => htidy d (List.mem_of_mem_take hd.mem),
      fun _ d hd => htidy d (List.mem_of_mem_take hd)⟩
  have hwidth : Declares "<width> = thin" "width" "thin" :=
    (parseDefinition?_eq_some_iff (htidy _ (by simp [definitions]))).mp (by decide +kernel)
  have hagain : Declares "\u00a0width =1 = 2 " "width" "1 = 2" :=
    (parseDefinition?_eq_some_iff (htidy _ (by simp [definitions]))).mp (by decide +kernel)
  obtain ⟨t, ht, hget⟩ := hfront.table
    (List.forall_mem_cons.mpr ⟨⟨_, _, hwidth⟩, List.forall_mem_singleton.mpr ⟨_, _, hagain⟩⟩)
  refine ⟨htidy, herror, (hread.error_iff "=x").mp herror, t, ht, (hget _ _).mpr ?_, hagain⟩
  exact ⟨["<width> = thin"], _, [], rfl, hagain, List.forall_mem_nil _⟩

/-- Brackets with nothing in them define the empty name, and blanks inside brackets stay in the
name. -/
theorem empty_name_is_defined :
    ¬ ReadsDeclared ["<>=x"] ∧ (∃ t, TypeTable.parse ["<>=x"] = .ok t ∧ t.get? "" = some "x") ∧
      ¬ ReadsDeclared ["< a >=x"] ∧
      ∃ t, TypeTable.parse ["< a >=x"] = .ok t ∧ t.get? " a " = some "x" ∧ t.get? "a" = none := by
  have hempty : ¬ IsTidy "<>=x" := by decide +kernel
  have hspaced : ¬ IsTidy "< a >=x" := by decide +kernel
  exact ⟨mt isTidy_of_singleton hempty, ⟨_, rfl, by decide +kernel⟩,
    mt isTidy_of_singleton hspaced, ⟨_, rfl, by decide +kernel⟩⟩

end ValueGrammar
