import ValueGrammar.Token.Pattern

/-!
# Lexemes

What the patterns match, said without cutting a text: names, names of types, numerals, comments and
texts in quotes. A lexeme is cut off whole in front of everything that does not prolong it.

Two patterns never match in front of the same text, but for `||` and `|`: they begin with different
characters. So the first pattern that matches is the only one.

Headlines:
* **`isName_of_run`**, **`isNumeral_of_number`**, **`exists_of_enclosed`**, **`exists_of_comment`**:
  what is cut off is a lexeme.
* **`run_append`**, **`number_append`**, **`enclosed_append`**, **`comment_append`**: a lexeme is cut
  off.
* **`eq_or_bar_of_split?`**: at most one pattern matches, but for `||` and `|`.
* **`first?_of_split?`**: a pattern that matches is the first one, unless it is `|` before another.
-/

namespace ValueGrammar

/-! ## Runs -/

/-- A text does not begin with a character of a class. -/
def Stops (p : Char → Bool) (rest : List Char) : Prop := ∀ c ∈ rest.head?, p c = false

section Runs

variable {p : Char → Bool} {cs rest : List Char}

theorem takeWhile_eq_nil_of_stops (h : Stops p rest) : rest.takeWhile p = [] := by
  cases rest with
  | nil => rfl
  | cons c rest => rw [List.takeWhile_cons, h c rfl]; rfl

theorem dropWhile_eq_self_of_stops (h : Stops p rest) : rest.dropWhile p = rest := by
  cases rest with
  | nil => rfl
  | cons c rest => rw [List.dropWhile_cons, h c rfl]; rfl

theorem takeWhile_append_of_stops (hcs : ∀ c ∈ cs, p c = true) (h : Stops p rest) :
    (cs ++ rest).takeWhile p = cs := by
  rw [List.takeWhile_append_of_pos hcs, takeWhile_eq_nil_of_stops h, List.append_nil]

theorem dropWhile_append_of_stops (hcs : ∀ c ∈ cs, p c = true) (h : Stops p rest) :
    (cs ++ rest).dropWhile p = rest := by
  rw [List.dropWhile_append_of_pos hcs, dropWhile_eq_self_of_stops h]

theorem stops_dropWhile (p : Char → Bool) (cs : List Char) : Stops p (cs.dropWhile p) := by
  intro c hc
  have hstop := List.head?_dropWhile_not p cs
  rw [hc] at hstop
  exact hstop

theorem forall_mem_takeWhile (p : Char → Bool) (cs : List Char) :
    ∀ c ∈ cs.takeWhile p, p c = true :=
  List.all_eq_true.mp List.all_takeWhile

end Runs

namespace Lexeme

/-! ## The classes of lexemes -/

/-- An identifier: a letter, a hyphen or an underscore, and more of them or digits after it. -/
def IsName : List Char → Prop
  | [] => False
  | c :: cs => isNameStart c = true ∧ ∀ d ∈ cs, isNamePart d = true

/-- The name of a type: letters, hyphens and underscores. -/
def IsTypeName (cs : List Char) : Prop := cs ≠ [] ∧ ∀ c ∈ cs, isNameStart c = true

/-- A whole numeral: zero, or digits that do not start with zero. -/
def IsWhole : List Char → Prop
  | [] => False
  | c :: cs => c = '0' ∧ cs = [] ∨ c ≠ '0' ∧ ∀ d ∈ c :: cs, d.isDigit = true

/-- What may follow a whole numeral: nothing, or a point and digits. -/
def IsFraction : List Char → Prop
  | [] => True
  | c :: cs => c = '.' ∧ cs ≠ [] ∧ ∀ d ∈ cs, d.isDigit = true

/-- A numeral: a whole one, with a fraction or without. -/
def IsNumeral (cs : List Char) : Prop :=
  ∃ whole tail, cs = whole ++ tail ∧ IsWhole whole ∧ IsFraction tail

/-- A text that one of the three pairs of quotes can hold. -/
def IsQuotable (cs : List Char) : Prop :=
  (cs ≠ [] ∧ '\x22' ∉ cs) ∨ (cs ≠ [] ∧ '\x27' ∉ cs) ∨ ('‘' ∉ cs ∧ '’' ∉ cs)

theorem exists_cons_of_isName {cs : List Char} (h : IsName cs) :
    ∃ c ds, cs = c :: ds ∧ isNameStart c = true ∧ ∀ d ∈ ds, isNamePart d = true := by
  cases cs with
  | nil => exact h.elim
  | cons c ds => exact ⟨c, ds, rfl, h⟩

/-! ## What is cut off is a lexeme -/

variable {cs lexeme rest : List Char}

theorem exists_of_run {first next : Char → Bool} (h : run first next cs = some (lexeme, rest)) :
    ∃ c ds, lexeme = c :: ds ∧ first c = true ∧ ∀ d ∈ ds, next d = true := by
  unfold run at h
  split at h
  · cases h
  · rename_i c cs
    split at h
    · rename_i hc
      cases h
      exact ⟨c, _, rfl, hc, forall_mem_takeWhile next cs⟩
    · cases h

theorem isName_of_run (h : run isNameStart isNamePart cs = some (lexeme, rest)) :
    IsName lexeme := by
  obtain ⟨c, ds, rfl, hc, hds⟩ := exists_of_run h
  exact ⟨hc, hds⟩

/-- A lexeme between quotes or angle brackets is what stands between them. -/
theorem exists_of_enclosed {opening : Char} {inner closing : Char → Bool} {blankAllowed : Bool}
    (h : enclosed opening inner closing blankAllowed cs = some (lexeme, rest)) :
    ∃ ds d, lexeme = opening :: (ds ++ [d]) ∧ (∀ e ∈ ds, inner e = true) ∧ closing d = true ∧
      (blankAllowed = true ∨ ds ≠ []) := by
  unfold enclosed at h
  split at h
  · cases h
  · rename_i c cs
    split at h
    · rename_i hopen
      split at h
      · cases h
      · rename_i d rest' hd
        split at h
        · rename_i hclose
          cases h
          exact ⟨_, d, by rw [hopen.1], forall_mem_takeWhile inner cs, hclose, hopen.2⟩
        · cases h
    · cases h

/-- A comment goes on to the end of its line. -/
theorem exists_of_comment (h : comment cs = some (lexeme, rest)) :
    ∃ ds, lexeme = '/' :: '/' :: ds ∧ (∀ d ∈ ds, d ≠ '\n') ∧ Stops (· ≠ '\n') rest := by
  obtain ⟨⟨slashes, behind⟩, hf, he⟩ := Option.map_eq_some_iff.mp h
  obtain ⟨-, rfl⟩ := fixed_eq hf
  obtain ⟨rfl, rfl⟩ := Prod.mk.inj he
  exact ⟨_, rfl, fun d hd => of_decide_eq_true (forall_mem_takeWhile _ behind d hd),
    stops_dropWhile _ behind⟩

theorem isWhole_of_whole? (h : Text.whole? cs = some (lexeme, rest)) : IsWhole lexeme := by
  unfold Text.whole? at h
  split at h
  · cases h
  · rename_i c cs
    split at h
    · rename_i hc
      cases h
      exact .inl ⟨rfl, rfl⟩
    · rename_i hc
      split at h
      · rename_i hd
        cases h
        rw [List.takeWhile_cons_of_pos hd]
        exact .inr ⟨hc, List.forall_mem_cons.mpr ⟨hd, forall_mem_takeWhile Char.isDigit cs⟩⟩
      · cases h

theorem isFraction_fraction (cs : List Char) : IsFraction (Text.fraction cs).1 := by
  unfold Text.fraction
  split
  · split
    · rename_i h
      exact ⟨h.1, h.2, forall_mem_takeWhile Char.isDigit _⟩
    · trivial
  · trivial

theorem isNumeral_of_number (h : number cs = some (lexeme, rest)) : IsNumeral lexeme := by
  obtain ⟨⟨ds, rest'⟩, hw, he⟩ := Option.map_eq_some_iff.mp h
  cases he
  exact ⟨ds, _, rfl, isWhole_of_whole? hw, isFraction_fraction rest'⟩

/-! ## A lexeme is cut off -/

theorem run_append {first next : Char → Bool} {c : Char} (hc : first c = true)
    (hcs : ∀ d ∈ cs, next d = true) (hr : Stops next rest) :
    run first next (c :: cs ++ rest) = some (c :: cs, rest) := by
  rw [List.cons_append, run, if_pos hc, takeWhile_append_of_stops hcs hr,
    dropWhile_append_of_stops hcs hr]

theorem fixed_append (text rest : List Char) : fixed text (text ++ rest) = some (text, rest) := by
  rw [fixed, if_pos (List.isPrefixOf_iff_prefix.mpr (List.prefix_append text rest)),
    List.drop_left]

theorem enclosed_append {opening d : Char} {inner closing : Char → Bool} {blankAllowed : Bool}
    (hcs : ∀ c ∈ cs, inner c = true) (hd : inner d = false) (hclose : closing d = true)
    (hb : blankAllowed = true ∨ cs ≠ []) :
    enclosed opening inner closing blankAllowed (opening :: (cs ++ [d]) ++ rest) =
      some (opening :: (cs ++ [d]), rest) := by
  have hstop : Stops inner (d :: rest) := by
    rintro c ⟨⟩
    exact hd
  rw [List.cons_append, List.append_assoc, List.singleton_append, enclosed,
    takeWhile_append_of_stops hcs hstop, dropWhile_append_of_stops hcs hstop, if_pos ⟨rfl, hb⟩]
  exact if_pos hclose

theorem comment_append (hcs : ∀ c ∈ cs, c ≠ '\n') (hr : Stops (· ≠ '\n') rest) :
    comment ('/' :: '/' :: cs ++ rest) = some ('/' :: '/' :: cs, rest) := by
  have hline : ∀ c ∈ cs, decide (c ≠ '\n') = true := fun c hc => decide_eq_true (hcs c hc)
  have hsplit : '/' :: '/' :: cs ++ rest = ['/', '/'] ++ (cs ++ rest) := rfl
  rw [hsplit, comment, fixed_append, Option.map_some, takeWhile_append_of_stops hline hr,
    dropWhile_append_of_stops hline hr]
  rfl

theorem whole?_append (hw : IsWhole cs) (hr : Stops Char.isDigit rest) :
    Text.whole? (cs ++ rest) = some (cs, rest) := by
  cases cs with
  | nil => exact hw.elim
  | cons c cs =>
    rw [List.cons_append, Text.whole?]
    rcases hw with ⟨rfl, rfl⟩ | ⟨hc, hcs⟩
    · exact if_pos rfl
    · rw [if_neg hc, if_pos (hcs c List.mem_cons_self), ← List.cons_append,
        takeWhile_append_of_stops hcs hr, dropWhile_append_of_stops hcs hr]

theorem fraction_append_of_stops (hf : IsFraction cs) (hr : Stops Char.isDigit rest)
    (hp : Stops (· = '.') rest) : Text.fraction (cs ++ rest) = (cs, rest) := by
  cases cs with
  | nil =>
    cases rest with
    | nil => rfl
    | cons c rest =>
      rw [List.nil_append, Text.fraction, if_neg]
      exact fun h => absurd (hp c rfl) (by simp [h.1])
  | cons c cs =>
    obtain ⟨rfl, hne, hcs⟩ := hf
    rw [List.cons_append, Text.fraction, takeWhile_append_of_stops hcs hr,
      dropWhile_append_of_stops hcs hr, if_pos ⟨rfl, hne⟩]

theorem number_append (hn : IsNumeral cs) (hr : Stops Char.isDigit rest)
    (hp : Stops (· = '.') rest) : number (cs ++ rest) = some (cs, rest) := by
  obtain ⟨whole, tail, rfl, hw, hf⟩ := hn
  have hstop : Stops Char.isDigit (tail ++ rest) := by
    cases tail with
    | nil => exact hr
    | cons c tail =>
      rintro d ⟨⟩
      rw [hf.1]
      rfl
  rw [number, List.append_assoc, whole?_append hw hstop, Option.map_some,
    fraction_append_of_stops hf hr hp]

end Lexeme

/-! ## At most one pattern matches -/

namespace Pattern

variable {p q : Pattern} {cs lexeme rest : List Char}

/-- The code points that a lexeme of a pattern begins with, as inclusive ranges. -/
def heads : Pattern → List (Nat × Nat)
  | .blanks => Text.blankRanges
  | .comment => [(0x2F, 0x2F)]
  | .identifier => [(0x2D, 0x2D), (0x41, 0x5A), (0x5F, 0x5F), (0x61, 0x7A)]
  | .typeRef => [(0x3C, 0x3C)]
  | .doubleQuoted => [(0x22, 0x22)]
  | .singleQuoted => [(0x27, 0x27)]
  | .curlyQuoted => [(0x2018, 0x2018)]
  | .doubleBar | .bar => [(0x7C, 0x7C)]
  | .doubleAmpersand => [(0x26, 0x26)]
  | .star => [(0x2A, 0x2A)]
  | .plus => [(0x2B, 0x2B)]
  | .question => [(0x3F, 0x3F)]
  | .openBrace => [(0x7B, 0x7B)]
  | .closeBrace => [(0x7D, 0x7D)]
  | .openBracket => [(0x5B, 0x5B)]
  | .closeBracket => [(0x5D, 0x5D)]
  | .number => [(0x30, 0x39)]
  | .hash => [(0x23, 0x23)]
  | .comma => [(0x2C, 0x2C)]

/-- Whether a lexeme of a pattern can begin with a character. -/
def Opens (p : Pattern) (c : Char) : Prop := ∃ h ∈ p.heads, h.1 ≤ c.toNat ∧ c.toNat ≤ h.2

theorem mem_all (p : Pattern) : p ∈ all := by
  cases p <;> decide

/-- The heads of two patterns have no code point in common, but for `||` and `|`. -/
theorem heads_disjoint : ∀ p ∈ all, ∀ q ∈ all, p = q ∨
    (p = .bar ∧ q = .doubleBar) ∨ (p = .doubleBar ∧ q = .bar) ∨
      ∀ h ∈ p.heads, ∀ k ∈ q.heads, h.2 < k.1 ∨ k.2 < h.1 := by
  decide

/-- Patterns that begin alike are the same, but for `||` and `|`. -/
theorem eq_or_bar_of_opens {c : Char} (hp : p.Opens c) (hq : q.Opens c) :
    p = q ∨ (p = .bar ∧ q = .doubleBar) ∨ (p = .doubleBar ∧ q = .bar) := by
  rcases heads_disjoint p (mem_all p) q (mem_all q) with h | h | h | h
  · exact .inl h
  · exact .inr (.inl h)
  · exact .inr (.inr h)
  · obtain ⟨h₁, hm₁, hl₁, hu₁⟩ := hp
    obtain ⟨h₂, hm₂, hl₂, hu₂⟩ := hq
    have := h h₁ hm₁ h₂ hm₂
    omega

theorem opens_identifier {c : Char} (h : isNameStart c = true) : identifier.Opens c := by
  rcases Bool.or_eq_true_iff.mp h with h | h
  · rcases Bool.or_eq_true_iff.mp h with h | h
    · obtain rfl := of_decide_eq_true h
      exact ⟨(0x2D, 0x2D), by decide, by decide⟩
    · obtain rfl := of_decide_eq_true h
      exact ⟨(0x5F, 0x5F), by decide, by decide⟩
  · rcases Bool.or_eq_true_iff.mp h with h | h
    · obtain ⟨h₁, h₂⟩ := of_decide_eq_true h
      exact ⟨(0x41, 0x5A), by decide, h₁, h₂⟩
    · obtain ⟨h₁, h₂⟩ := Bool.and_eq_true_iff.mp h
      exact ⟨(0x61, 0x7A), by decide, of_decide_eq_true h₁, of_decide_eq_true h₂⟩

theorem opens_number {c : Char} (h : c.isDigit = true) : number.Opens c :=
  ⟨(0x30, 0x39), List.mem_singleton.mpr rfl, Char.isDigit_iff_toNat.mp h⟩

/-- A numeral begins with a digit. -/
theorem opens_of_isNumeral {cs : List Char} (h : Lexeme.IsNumeral cs) :
    ∃ c ds, cs = c :: ds ∧ number.Opens c := by
  obtain ⟨whole, tail, rfl, hw, -⟩ := h
  cases whole with
  | nil => exact hw.elim
  | cons c ds =>
    refine ⟨c, ds ++ tail, rfl, opens_number ?_⟩
    rcases hw with ⟨rfl, -⟩ | ⟨-, hd⟩
    · decide
    · exact hd c List.mem_cons_self

/-- A lexeme begins with a character that opens its pattern. -/
theorem opens_of_split? (h : p.split? cs = some (lexeme, rest)) :
    ∃ c ds, lexeme = c :: ds ∧ p.Opens c := by
  cases p with
  | blanks =>
    obtain ⟨c, ds, rfl, hc, -⟩ := Lexeme.exists_of_run h
    exact ⟨c, ds, rfl, (Text.isBlank_iff c).mp hc⟩
  | comment =>
    obtain ⟨ds, rfl, -⟩ := Lexeme.exists_of_comment h
    exact ⟨_, _, rfl, by simp [Opens, heads]⟩
  | identifier =>
    obtain ⟨c, ds, rfl, hc, -⟩ := Lexeme.exists_of_run h
    exact ⟨c, ds, rfl, opens_identifier hc⟩
  | typeRef | doubleQuoted | singleQuoted | curlyQuoted =>
    obtain ⟨ds, d, rfl, -⟩ := Lexeme.exists_of_enclosed h
    exact ⟨_, _, rfl, by simp [Opens, heads]⟩
  | number => exact opens_of_isNumeral (Lexeme.isNumeral_of_number h)
  | _ =>
    rw [(Lexeme.fixed_eq h).2]
    exact ⟨_, _, rfl, by simp [Opens, heads]⟩

/-- At most one pattern matches in front of a text, but for `||` and `|`. -/
theorem eq_or_bar_of_split? {lexeme' rest' : List Char}
    (hp : p.split? cs = some (lexeme, rest)) (hq : q.split? cs = some (lexeme', rest')) :
    p = q ∨ (p = .bar ∧ q = .doubleBar) ∨ (p = .doubleBar ∧ q = .bar) := by
  obtain ⟨c, ds, rfl, hc⟩ := opens_of_split? hp
  obtain ⟨d, es, rfl, hd⟩ := opens_of_split? hq
  have happ : c :: (ds ++ rest) = d :: (es ++ rest') :=
    (append_of_split? hp).trans (append_of_split? hq).symm
  obtain rfl : c = d := (List.cons.inj happ).1
  exact eq_or_bar_of_opens hc hd

theorem first?_doubleBar (rest : List Char) :
    first? ('|' :: '|' :: rest) = some (doubleBar, ['|', '|'], rest) := rfl

theorem isSome_first? (h : p.split? cs = some (lexeme, rest)) : (first? cs).isSome := by
  rw [first?, List.findSome?_isSome_iff]
  exact ⟨p, mem_all p, by rw [h]; rfl⟩

/-- A pattern that matches is the first one, unless it is `|` in front of another. -/
theorem first?_of_split? (h : p.split? cs = some (lexeme, rest))
    (hbar : p = .bar → doubleBar.split? cs = none) :
    first? cs = some (p, lexeme, rest) := by
  obtain ⟨⟨q, lexeme', rest'⟩, hq⟩ := Option.isSome_iff_exists.mp (isSome_first? h)
  have hq' := split?_of_first? hq
  -- whatever is found first also matches, so it is the same pattern or the other bar
  rcases eq_or_bar_of_split? h hq' with rfl | ⟨rfl, rfl⟩ | ⟨rfl, rfl⟩
  · rw [hq, Option.some.inj (h.symm.trans hq')]
  · exact absurd hq' (by simp [hbar rfl])
  · obtain ⟨happ, rfl⟩ := Lexeme.fixed_eq h
    rw [← happ]
    exact first?_doubleBar rest

end Pattern

end ValueGrammar
