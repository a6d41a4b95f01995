import Mathlib.Data.List.Forall2
import ValueGrammar.Expr.Printer
import ValueGrammar.Proofs.Parsing
import ValueGrammar.Proofs.Shape

/-!
# Writing and reading back

`Written cs ts` says that a text is cut into given tokens in front of everything that prolongs no
lexeme. The text of a printable expression is written so that its tokens spell the expression, up
to the brackets that are put around multiplied bodies. By `parse_ok_iff` it is then read back.

Headlines:
* **`exists_written_leaf`**, **`exists_suffix_written`**, **`exists_written_operands`**: the
  pieces.
* **`exists_written`**: the tokens of a printable expression's text spell it.
* **`parse_source`**: writing, then reading, is the identity up to those brackets.
-/

namespace ValueGrammar

variable {cs ds rest : List Char} {ts us ws : List Token} {t : Token}

/-! ## Texts in front of a delimiter -/

/-- Whether a character prolongs a name or a numeral. -/
def prolongs (c : Char) : Bool := isNamePart c || c = '.'

/-- **Writing tokens**: in front of what prolongs no lexeme, the text is cut into the tokens. -/
def Written (cs : List Char) (ts : List Token) : Prop :=
  ∀ rest us, Stops prolongs rest → Lexed rest us → Lexed (cs ++ rest) (ts ++ us)

theorem stops_namePart (h : Stops prolongs rest) : Stops isNamePart rest :=
  fun c hc => (Bool.or_eq_false_iff.mp (h c hc)).1

theorem stops_point (h : Stops prolongs rest) : Stops (· = '.') rest :=
  fun c hc => (Bool.or_eq_false_iff.mp (h c hc)).2

theorem stops_digit (h : Stops prolongs rest) : Stops Char.isDigit rest :=
  fun c hc => (Bool.or_eq_false_iff.mp (stops_namePart h c hc)).2

theorem stops_cons {c : Char} (h : prolongs c = false) (rest : List Char) :
    Stops prolongs (c :: rest) := by
  rintro d ⟨⟩
  exact h

theorem lexed_of_written (h : Written cs ts) : Lexed cs ts := by
  have h := h [] [] (by rintro c ⟨⟩) lexed_nil
  rwa [List.append_nil, List.append_nil] at h

theorem written_append (h₁ : Written cs ts) (hs : ∀ rest, Stops prolongs (ds ++ rest))
    (h₂ : Written ds us) : Written (cs ++ ds) (ts ++ us) := by
  intro rest ws hrest hws
  rw [List.append_assoc, List.append_assoc]
  exact h₁ _ _ (hs rest) (h₂ _ _ hrest hws)

/-! ## Leaves -/

theorem written_of_split? {p : Pattern} (hbar : p ≠ .bar) (ht : p.token? cs = some t)
    (h : ∀ {rest}, Stops prolongs rest → p.split? (cs ++ rest) = some (cs, rest)) :
    Written cs [t] :=
  fun _ _ hrest hus => lexed_of_split? (h hrest) (fun hp => absurd hp hbar) ht hus

theorem written_name {name : String} (h : Lexeme.IsName name.toList) :
    Written name.toList [.identifier name] := by
  refine written_of_split? (p := .identifier) (by simp) ?_ fun hrest => ?_
  · rw [Pattern.token?, String.ofList_toList]
  · obtain ⟨c, cs, hcs, hc, hd⟩ := Lexeme.exists_cons_of_isName h
    rw [hcs]
    exact Lexeme.run_append hc hd (stops_namePart hrest)

theorem written_numeral {text : String} (h : Lexeme.IsNumeral text.toList) :
    Written text.toList [.number text] := by
  refine written_of_split? (p := .number) (by simp) ?_ fun hrest => ?_
  · rw [Pattern.token?, String.ofList_toList]
  · exact Lexeme.number_append h (stops_digit hrest) (stops_point hrest)

/-- A text between quotes or angle brackets is written as the token that holds it. -/
theorem written_enclosed (p : Pattern) {opening d : Char} {inner closing : Char → Bool}
    {blankAllowed : Bool} {token : String → Token} {text : String}
    (hp : p.split? = Lexeme.enclosed opening inner closing blankAllowed)
    (ht : ∀ lexeme, p.token? lexeme = some (token (Pattern.inside lexeme)))
    (hinner : ∀ c ∈ text.toList, inner c = true) (hd : inner d = false)
    (hclose : closing d = true) (hb : blankAllowed = true ∨ text.toList ≠ []) :
    Written (opening :: (text.toList ++ [d])) [token text] := by
  have hbar : p ≠ .bar := by
    rintro rfl
    exact absurd (congrFun hp ['|']) (by simp [Pattern.split?, Lexeme.fixed, Lexeme.enclosed])
  refine written_of_split? hbar ?_ fun _ => ?_
  · rw [ht, ← String.ofList_toList (s := Pattern.inside _), toList_inside, String.ofList_toList]
  · rw [hp]
    exact Lexeme.enclosed_append hinner hd hclose hb

theorem written_typeRef {name : String} (h : Lexeme.IsTypeName name.toList) :
    Written ('<' :: (name.toList ++ ['>'])) [.typeRef name] :=
  written_enclosed .typeRef rfl (fun _ => rfl) h.2 (by decide) (by decide) (.inr h.1)

theorem written_doubleQuoted {text : String} (hne : text.toList ≠ []) (h : '\x22' ∉ text.toList) :
    Written ('\x22' :: (text.toList ++ ['\x22'])) [.quoted text] :=
  written_enclosed .doubleQuoted rfl (fun _ => rfl)
    (fun _ hc => decide_eq_true (ne_of_mem_of_not_mem hc h)) (by decide) (by decide) (.inr hne)

theorem written_singleQuoted {text : String} (hne : text.toList ≠ []) (h : '\x27' ∉ text.toList) :
    Written ('\x27' :: (text.toList ++ ['\x27'])) [.quoted text] :=
  written_enclosed .singleQuoted rfl (fun _ => rfl)
    (fun _ hc => decide_eq_true (ne_of_mem_of_not_mem hc h)) (by decide) (by decide) (.inr hne)

theorem written_curlyQuoted {text : String} (h₁ : '‘' ∉ text.toList) (h₂ : '’' ∉ text.toList) :
    Written ('‘' :: (text.toList ++ ['’'])) [.quoted text] :=
  written_enclosed .curlyQuoted rfl (fun _ => rfl)
    (fun _ hc => Bool.and_eq_true_iff.mpr ⟨decide_eq_true (ne_of_mem_of_not_mem hc h₁),
      decide_eq_true (ne_of_mem_of_not_mem hc h₂)⟩) (by decide) (by decide) (.inl rfl)

/-- The quotes chosen for a text suit it. -/
theorem written_quoted {text : String} (h : Lexeme.IsQuotable text.toList) :
    Written (Leaf.quoted text).source.toList [.quoted text] := by
  rw [Leaf.source, quotesFor]
  by_cases h0 : text = ""
  · subst h0
    have h : Written ('‘' :: ("".toList ++ ['’'])) [.quoted ""] :=
      written_curlyQuoted (by simp) (by simp)
    exact h
  have hne : text.toList ≠ [] := fun h => h0 (String.toList_eq_nil_iff.mp h)
  by_cases h2 : '\x22' ∈ text.toList
  · by_cases h1 : '\x27' ∈ text.toList
    · rcases h with h | h | h
      · exact absurd h2 h.2
      · exact absurd h1 h.2
      · simpa [h0, h1, h2] using written_curlyQuoted h.1 h.2
    · simpa [h0, h1, h2] using written_singleQuoted hne h1
  · simpa [h0, h2] using written_doubleQuoted hne h2

/-- A lexable leaf is written as one token that spells it. -/
theorem exists_written_leaf {l : Leaf} (h : l.Lexable) :
    ∃ t, Written l.source.toList [t] ∧ Derives .term [t] (.leaf l) := by
  cases l with
  | identifier name =>
    rcases h with h | h
    · exact ⟨_, written_name h, .identifier name⟩
    · exact ⟨_, written_numeral h, .number name⟩
  | typeRef name =>
    exact ⟨_, by simpa [Leaf.source] using written_typeRef h, .typeRef name⟩
  | quoted text => exact ⟨_, written_quoted h, .quoted text⟩

/-! ## Symbols -/

theorem written_nil : Written [] [] := fun _ _ _ hus => hus

/-- A fixed text may be written in front of anything, but for `|` in front of another. -/
theorem written_fixed (p : Pattern) {text : List Char} (h : Written cs ts)
    (hp : p.split? = Lexeme.fixed text) (ht : p.token? text = some t)
    (hbar : p = .bar → ∀ rest, Pattern.doubleBar.split? (text ++ (cs ++ rest)) = none) :
    Written (text ++ cs) (t :: ts) := by
  intro rest us hrest hus
  have hcut : p.split? (text ++ (cs ++ rest)) = some (text, cs ++ rest) := by
    rw [hp, Lexeme.fixed_append]
  rw [List.append_assoc]
  exact lexed_of_split? hcut (fun hp => hbar hp rest) ht (h rest us hrest hus)

theorem written_symbol (p : Pattern) {c : Char} (hp : p.split? = Lexeme.fixed [c])
    (ht : p.token? [c] = some t) (hbar : p ≠ .bar) (hc : prolongs c = false) :
    Written [c] [t] ∧ ∀ rest, Stops prolongs (c :: rest) :=
  ⟨written_fixed p written_nil hp ht fun h => absurd h hbar, stops_cons hc⟩

theorem written_closeBracket : Written [']'] [.closeBracket] :=
  (written_symbol .closeBracket rfl rfl (by simp) rfl).1

theorem written_closeBrace : Written ['\x7d'] [.closeBrace] :=
  (written_symbol .closeBrace rfl rfl (by simp) rfl).1

theorem written_space (h : Written cs ts) : Written (' ' :: cs) ts :=
  fun rest us hrest hus => lexed_space (h rest us hrest hus)

/-- A separator is written in front of anything. -/
theorem written_separator (c : Combinator) (h : Written cs ts) :
    Written (c.separator.toList ++ cs) (c.separatorTokens ++ ts) := by
  cases c with
  | juxtaposition => exact written_space h
  | allOf =>
    have h : Written (['&', '&'] ++ ' ' :: cs) (.doubleAmpersand :: ts) :=
      written_fixed .doubleAmpersand (written_space h) rfl rfl (by simp)
    exact written_space h
  | oneOf =>
    have h : Written (['|'] ++ ' ' :: cs) (.bar :: ts) :=
      written_fixed .bar (written_space h) rfl rfl fun _ _ => rfl
    exact written_space h
  | anyOf =>
    have h : Written (['|', '|'] ++ ' ' :: cs) (.doubleBar :: ts) :=
      written_fixed .doubleBar (written_space h) rfl rfl (by simp)
    exact written_space h

theorem stops_separator (c : Combinator) (rest : List Char) :
    Stops prolongs (c.separator.toList ++ rest) := by
  cases c <;> rintro d ⟨⟩ <;> rfl

/-! ## Multipliers -/

theorem digitChar_ne_zero : ∀ n < 10, 0 < n → n.digitChar ≠ '0' := by
  decide

theorem exists_cons_toDigits {n : Nat} (hn : 0 < n) :
    ∃ c cs, Nat.toDigits 10 n = c :: cs ∧ c ≠ '0' := by
  induction n using Nat.strongRecOn with
  | ind n ih =>
    by_cases h : n < 10
    · exact ⟨n.digitChar, [], Nat.toDigits_of_lt_base h, digitChar_ne_zero n h hn⟩
    · obtain ⟨c, cs, hcs, hc⟩ := ih (n / 10) (by omega) (by omega)
      exact ⟨c, _, by rw [Nat.toDigits_of_base_le (by decide) (by omega), hcs]; rfl, hc⟩

/-- The digits of a number are a whole numeral. -/
theorem isWhole_toDigits (n : Nat) : Lexeme.IsWhole (Nat.toDigits 10 n) := by
  have hall : ∀ c ∈ Nat.toDigits 10 n, c.isDigit = true :=
    fun c hc => Nat.isDigit_of_mem_toDigits (by decide) (by decide) hc
  rcases Nat.eq_zero_or_pos n with rfl | hn
  · exact .inl ⟨rfl, rfl⟩
  · obtain ⟨c, cs, hcs, hc⟩ := exists_cons_toDigits hn
    rw [hcs] at hall ⊢
    exact .inr ⟨hc, hall⟩

theorem toList_toString (n : Nat) : (toString n).toList = Nat.toDigits 10 n := Nat.toList_repr

theorem written_count (n : Nat) : Written (toString n).toList [.number (toString n)] := by
  refine written_numeral ⟨_, [], (List.append_nil _).symm, ?_, trivial⟩
  rw [toList_toString]
  exact isWhole_toDigits n

theorem denotesCount (n : UInt32) : DenotesCount (toString n.toNat) n := by
  rw [DenotesCount, toList_toString]
  exact ⟨Nat.toDigits_ne_nil,
    fun c hc => Nat.isDigit_of_mem_toDigits (by decide) (by decide) hc,
    Nat.ofDigitChars_toDigits (by decide) (by decide)⟩

/-- The last count of a range is written with the closing brace behind it. -/
theorem written_last_count (n : Nat) :
    Written ((toString n).toList ++ ['\x7d']) [.number (toString n), .closeBrace] :=
  written_append (written_count n) (stops_cons rfl) written_closeBrace

/-- Two counts are written in braces. -/
theorem written_counted (least most : Nat) :
    Written ('\x7b' :: ((toString least).toList ++ (',' :: ((toString most).toList ++ ['\x7d']))))
      [.openBrace, .number (toString least), .comma, .number (toString most), .closeBrace] := by
  have hcomma := written_fixed .comma (written_last_count most) rfl rfl (by simp)
  have hleast := written_append (written_count least) (stops_cons rfl) hcomma
  exact written_fixed .openBrace hleast rfl rfl (by simp)

/-- A multiplier in order is written as tokens that spell it, and ends what stands before it. -/
theorem exists_suffix_written {m : Multiplier} (h : m.Ordered) :
    ∃ us, Suffix us m ∧ Written m.source.toList us ∧
      ∀ rest, Stops prolongs (m.source.toList ++ rest) := by
  cases m with
  | optional =>
    exact ⟨_, .optional, written_symbol .question rfl rfl (by simp) rfl⟩
  | zeroOrMore =>
    exact ⟨_, .zeroOrMore, written_symbol .star rfl rfl (by simp) rfl⟩
  | oneOrMore =>
    exact ⟨_, .oneOrMore, written_symbol .plus rfl rfl (by simp) rfl⟩
  | commaSeparated =>
    exact ⟨_, .commaSeparated, written_symbol .hash rfl rfl (by simp) rfl⟩
  | counted least most =>
    have hsource : (Multiplier.counted least most).source.toList = '\x7b' ::
        ((toString least.toNat).toList ++ (',' :: ((toString most.toNat).toList ++ ['\x7d']))) := by
      simp [Multiplier.source]
    rw [hsource]
    exact ⟨_, .between (denotesCount least) (denotesCount most) h, written_counted _ _,
      stops_cons rfl⟩

/-! ## Expressions -/

/-- Operands are written one after another: whatever is known of the tokens of each. -/
theorem exists_written_operands {α : Type} (tokens : α → List Token) (R : Expr → α → Prop)
    {c : Combinator} {es : List Expr} (hne : es ≠ [])
    (h : ∀ e ∈ es, ∃ a, Written e.source.toList (tokens a) ∧ R e a) :
    ∃ as : List α, List.Forall₂ R es as ∧
      Written (c.separator.toList.intercalate (es.map fun e => e.source.toList))
        (c.separatorTokens.intercalate (as.map tokens)) := by
  induction es with
  | nil => exact absurd rfl hne
  | cons e es ih =>
    obtain ⟨⟨a, ha, hR⟩, hes⟩ := List.forall_mem_cons.mp h
    cases es with
    | nil => exact ⟨[a], .cons hR .nil, by simpa using ha⟩
    | cons e' es =>
      obtain ⟨_, hall, hw⟩ := ih (by simp) hes
      cases hall with
      | @cons _ b _ bs hb hbs =>
        refine ⟨a :: b :: bs, .cons hR (.cons hb hbs), ?_⟩
        rw [List.map_cons, List.map_cons, List.map_cons, List.map_cons,
          List.intercalate_cons_cons, List.intercalate_cons_cons, List.append_assoc,
          List.append_assoc]
        exact written_append ha (fun rest => by
          rw [List.append_assoc]; exact stops_separator c _) (written_separator c hw)

/-- What is written in brackets spells a group. -/
theorem written_bracketed {source : String} {e : Expr} (h : Written source.toList ts)
    (hd : Spells ts e) :
    Written (bracketed source).toList (.openBracket :: (ts ++ [.closeBracket])) ∧
      Derives .term (.openBracket :: (ts ++ [.closeBracket])) (.group e) := by
  have hbody := written_append h (stops_cons rfl) written_closeBracket
  have hopen := written_fixed .openBracket hbody rfl rfl (by simp)
  exact ⟨by simpa [bracketed] using hopen, .group hd⟩

/-- What is multiplied is written as a term, in brackets unless it is one. -/
theorem exists_written_body {body e : Expr} (h : Written body.source.toList ts)
    (hd : Spells ts e) (hterm : body.isTerm = true → Derives .term ts e) :
    ∃ us, Written (if body.isTerm then body.source else bracketed body.source).toList us ∧
      Derives .term us (if body.isTerm then e else .group e) := by
  by_cases hb : body.isTerm = true
  · rw [if_pos hb, if_pos hb]
    exact ⟨ts, h, hterm hb⟩
  · rw [if_neg hb, if_neg hb]
    exact ⟨_, written_bracketed h hd⟩

theorem category_of_isTerm {e : Expr} (h : e.isTerm = true) : e.category = .term := by
  cases e with
  | leaf | group => rfl
  | multiplied | combined => cases h

/-- The text of a printable expression is written as tokens that spell the expression with a group
around every multiplied body that needs one. -/
theorem exists_written {e : Expr} (h : Printable e) :
    ∃ ts, Written e.source.toList ts ∧ Derives e.category ts e.bracketBodies := by
  induction h with
  | leaf h =>
    obtain ⟨t, ht, hd⟩ := exists_written_leaf h
    exact ⟨[t], ht, hd⟩
  | @group body _ ih =>
    obtain ⟨ts, hts, hd⟩ := ih
    exact ⟨_, written_bracketed hts (spells_of_derives hd)⟩
  | @multiplied body m _ _ hm ih =>
    obtain ⟨ts, hts, hd⟩ := ih
    obtain ⟨us, hus, hd⟩ := exists_written_body hts (spells_of_derives hd)
      fun hb => category_of_isTerm hb ▸ hd
    obtain ⟨ws, hws, hw, hstop⟩ := exists_suffix_written hm
    refine ⟨us ++ ws, ?_, .multiplied hd hws⟩
    rw [Expr.source, String.toList_append]
    exact written_append hus hstop hw
  | @combined c operands h2 hl _ ih =>
    -- tighter operands need no brackets: their tokens derive them as operands
    have hne : operands ≠ [] := by
      rintro rfl
      exact absurd h2 (by simp)
    obtain ⟨os, hall, hw⟩ := exists_written_operands Prod.fst
      (fun e o => Derives c.operandCategory o.1 o.2 ∧ o.2 = e.bracketBodies) hne fun e he => by
        obtain ⟨ts, hts, hd⟩ := ih e he
        have hl := hl e he
        rw [← looseness_category] at hl
        exact ⟨(ts, e.bracketBodies), hts, derives_operandCategory hd hl, rfl⟩
    obtain ⟨hos, hmap⟩ := (List.forall₂_and_left _ _).mp hall.flip
    have hmap : os.map Prod.snd = operands.map Expr.bracketBodies := by
      rw [← List.forall₂_eq_eq_eq, List.forall₂_map_left_iff, List.forall₂_map_right_iff]
      exact hmap
    have hlen : os.length = operands.length := by simpa using congrArg List.length hmap
    refine ⟨c.separatorTokens.intercalate (os.map Prod.fst), ?_, ?_⟩
    · rw [Expr.source, String.toList_intercalate, Expr.sources_eq_map, List.map_map]
      exact hw
    · rw [Expr.bracketBodies, Expr.bracketBodiesEach_eq_map, ← hmap]
      exact .several (by omega) hos

/-- A printable expression is read back from its text, with the brackets that were put in. -/
theorem parse_source_of_printable {e : Expr} (h : Printable e) :
    Expr.parse e.source = .ok e.bracketBodies := by
  obtain ⟨ts, hts, hd⟩ := exists_written h
  exact parse_ok_iff.mpr ⟨ts, lexed_of_written hts 0, spells_of_derives hd⟩

/-- What is parsed is canonical. -/
theorem canonical_of_parse {input : String} {e : Expr} (h : Expr.parse input = .ok e) :
    Canonical e := by
  obtain ⟨ts, hts, hd⟩ := parse_ok_iff.mp h
  exact canonical_of_derives hd (lexable_of_tokenize hts)

/-- **Writing, then reading, is the identity** up to the brackets that are put around multiplied
bodies that are neither leaves nor groups. What has been read is written and read back as it is. -/
theorem parse_source :
    (∀ e, Printable e → Expr.parse e.source = .ok e.bracketBodies) ∧
      ∀ input e, Expr.parse input = .ok e → Expr.parse e.source = .ok e := by
  refine ⟨fun e h => parse_source_of_printable h, fun input e h => ?_⟩
  have hc := canonical_of_parse h
  rw [parse_source_of_printable (printable_of_canonical hc), bracketBodies_of_canonical hc]

/-- A text with both straight quotes beside a numeral, repeated as a whole, is read back in
brackets; an input without spaces around its operator is read, written and read alike. -/
theorem parse_source_bracketed :
    Printable (.multiplied (.combined .oneOf
        [.leaf (.quoted "it\x27s \x22a\x22"), .leaf (.identifier "1.5")]) (.counted 2 3)) ∧
      Expr.parse (Expr.source (.multiplied (.combined .oneOf
        [.leaf (.quoted "it\x27s \x22a\x22"), .leaf (.identifier "1.5")]) (.counted 2 3))) =
      .ok (.multiplied (.group (.combined .oneOf
        [.leaf (.quoted "it\x27s \x22a\x22"), .leaf (.identifier "1.5")])) (.counted 2 3)) ∧
    Expr.parse "a||<b># // c" = .ok (.combined .anyOf
        [.leaf (.identifier "a"), .multiplied (.leaf (.typeRef "b")) .commaSeparated]) ∧
      Expr.parse (Expr.source (.combined .anyOf
        [.leaf (.identifier "a"), .multiplied (.leaf (.typeRef "b")) .commaSeparated])) =
      .ok (.combined .anyOf
        [.leaf (.identifier "a"), .multiplied (.leaf (.typeRef "b")) .commaSeparated]) := by
  have hquoted : Leaf.Lexable (.quoted "it\x27s \x22a\x22") := .inr (.inr (by decide))
  have hnumber : Leaf.Lexable (.identifier "1.5") :=
    .inr ⟨['1'], ['.', '5'], by decide, .inr ⟨by decide, List.forall_mem_singleton.mpr rfl⟩,
      rfl, by decide, List.forall_mem_singleton.mpr rfl⟩
  have hprintable : Printable (.multiplied (.combined .oneOf
      [.leaf (.quoted "it\x27s \x22a\x22"), .leaf (.identifier "1.5")]) (.counted 2 3)) := by
    refine .multiplied (.combined (by decide) ?_ ?_) trivial (by decide : (2 : UInt32) ≤ 3)
    · exact List.forall_mem_cons.mpr ⟨by decide, List.forall_mem_singleton.mpr (by decide)⟩
    · exact List.forall_mem_cons.mpr ⟨.leaf hquoted, List.forall_mem_singleton.mpr (.leaf hnumber)⟩
  have hparse : Expr.parse "a||<b># // c" = .ok (.combined .anyOf
      [.leaf (.identifier "a"), .multiplied (.leaf (.typeRef "b")) .commaSeparated]) := by
    decide +kernel
  exact ⟨hprintable, parse_source.1 _ hprintable, hparse, parse_source.2 _ _ hparse⟩

end ValueGrammar
