import ValueGrammar.Command.Action
import ValueGrammar.Json.Reader
import ValueGrammar.Proofs.Interchange
import ValueGrammar.Proofs.Logging
import ValueGrammar.Proofs.RoundTrip

/-!
# JSON in any layout

A value that is written in a layout of blanks is read as that value, whatever the layout is. It is
proved for a value in front of any text that ends it, along the value: an array goes on behind each
item, and an object has read the members in front, all with smaller keys.

The reader may take as many steps as the text of the value has characters.

Headlines:
* **`text?_quote`**: a text in quotes is read as it was, whatever its characters are.
* **`readsBack_of_proper`**: a value is read in front of what ends it.
* **`parse?_render`**: the text of a value is read as the value.
* **`proper_toJson`**: what an expression is encoded as can be read.
* **`tree_is_read_back`**: the tree that is printed, in either layout, is decoded as the expression.
-/

namespace ValueGrammar

/-- An entry with a greater key than all others comes last. -/
theorem Dictionary.place_eq_append {α : Type} {key : String} (value : α) :
    ∀ {l : List (String × α)}, (∀ e ∈ l, e.1 < key) → place key value l = l ++ [(key, value)]
  | [], _ => rfl
  | (k, v) :: rest, h => by
    obtain ⟨hk, hrest⟩ := List.forall_mem_cons.mp h
    have hnot : ¬ key < k := fun hlt => String.lt_irrefl k (String.lt_trans hk hlt)
    have hne : k ≠ key := by
      rintro rfl
      exact String.lt_irrefl k hk
    rw [place, if_neg hnot, if_neg hne, place_eq_append value hrest]
    rfl

namespace Json

open Lexeme

/-! ## Texts -/

theorem unescape?_of_shortEscape? {c e : Char} (h : shortEscape? c = some e) :
    unescape? e = some c := by
  unfold shortEscape? at h
  repeat' split at h
  all_goals cases h
  all_goals
    rename_i hc
    rw [hc]
    rfl

theorem hexDigit?_digitChar : ∀ d < 16, hexDigit? (Nat.digitChar d) = some d := by
  decide

theorem text?_close (rest : List Char) : text? ('\x22' :: rest) = some ([], rest) := by
  rw [text?.eq_def]
  rfl

theorem text?_letter {e c : Char} (h : unescape? e = some c) (cs : List Char) :
    text? ('\x5c' :: e :: cs) = prepend c (text? cs) := by
  rw [text?.eq_def]
  simp only [h]
  rfl

theorem text?_unit {a b c d : Char} {n : Nat} (h : unit? a b c d = some n) (hn : n < 0xD800)
    (cs : List Char) :
    text? ('\x5c' :: 'u' :: a :: b :: c :: d :: cs) = prepend (Char.ofNat n) (text? cs) := by
  have hlow : ¬ (0xD800 ≤ n ∧ n < 0xE000) := by omega
  rw [text?.eq_def]
  simp only [h, if_neg hlow]
  rfl

theorem text?_plain {c : Char} (hquote : c ≠ '\x22') (hslash : c ≠ '\x5c') (hc : ¬ c.toNat < 0x20)
    (cs : List Char) : text? (c :: cs) = prepend c (text? cs) := by
  rw [text?.eq_def]
  simp only [if_neg hquote, if_neg hslash, if_neg hc]

/-- A character is read as it was. -/
theorem text?_escape (c : Char) (cs : List Char) :
    text? (escape c ++ cs) = prepend c (text? cs) := by
  unfold escape
  cases he : shortEscape? c with
  | some e => exact text?_letter (unescape?_of_shortEscape? he) cs
  | none =>
    by_cases hc : c.toNat < 0x20
    · have hunit : unit? '0' '0' (Nat.digitChar (c.toNat / 16)) (Nat.digitChar (c.toNat % 16)) =
          some c.toNat := by
        have hhigh := hexDigit?_digitChar (c.toNat / 16) (by omega)
        have hlow := hexDigit?_digitChar (c.toNat % 16) (by omega)
        have hzero : hexDigit? '0' = some 0 := rfl
        simp only [unit?, hhigh, hlow, hzero, Option.bind_eq_bind, Option.bind_some,
          Option.pure_def]
        congr 1
        omega
      simp only [if_pos hc]
      exact (text?_unit hunit (by omega) cs).trans (by rw [Char.ofNat_toNat])
    · have hquote : c ≠ '\x22' := by
        rintro rfl
        cases he
      have hslash : c ≠ '\x5c' := by
        rintro rfl
        cases he
      simp only [if_neg hc]
      exact text?_plain hquote hslash hc cs

/-- A text in quotes is read as it was. -/
theorem text?_quote (cs rest : List Char) :
    text? (cs.flatMap escape ++ '\x22' :: rest) = some (cs, rest) := by
  induction cs with
  | nil => exact text?_close rest
  | cons c cs ih =>
    rw [List.flatMap_cons, List.append_assoc, text?_escape, ih]
    rfl

/-! ## Numbers -/

/-- What may follow the digits of a number: nothing, or a letter, a sign or none, and digits. -/
def IsExponent : List Char → Prop
  | [] => True
  | c :: cs => (c = 'e' ∨ c = 'E') ∧ ∃ sign digits, cs = sign ++ digits ∧
      (sign = [] ∨ sign = ['+'] ∨ sign = ['-']) ∧ digits ≠ [] ∧ ∀ d ∈ digits, d.isDigit = true

/-- The spelling of a number that is not a natural one: a sign, a whole numeral, a fraction and an
exponent, and not only the numeral. -/
def IsDecimal (cs : List Char) : Prop :=
  ∃ sign digits point exponent, cs = sign ++ (digits ++ (point ++ exponent)) ∧
    (sign = [] ∨ sign = ['-']) ∧ IsWhole digits ∧ IsFraction point ∧ IsExponent exponent ∧
      ¬ (sign = [] ∧ point = [] ∧ exponent = [])

/-- **What ends a value**: nothing, a blank, a comma or a closing bracket. -/
def Ends (rest : List Char) : Prop :=
  ∀ c ∈ rest.head?, isSpace c = true ∨ c = ',' ∨ c = ']' ∨ c = '\x7d'

/-- What ends a value does not prolong a number. -/
theorem stops_of_ends {rest : List Char} (h : Ends rest) {p : Char → Bool}
    (hp : [' ', '\t', '\n', '\r', ',', ']', '\x7d'].any p = false) : Stops p rest := by
  intro c hc
  have hmem : c ∈ [' ', '\t', '\n', '\r', ',', ']', '\x7d'] := by
    have hc' := h c hc
    simpa [isSpace, or_assoc] using hc'
  simpa using List.any_eq_false.mp hp c hmem

theorem exponent?_append {cs rest : List Char} (h : IsExponent cs) (hrest : Ends rest) :
    exponent? (cs ++ rest) = some (cs, rest) := by
  cases cs with
  | nil =>
    cases rest with
    | nil => rfl
    | cons c rest =>
      have hc : ¬ (c = 'e' ∨ c = 'E') := by
        have hstop := stops_of_ends hrest (p := fun c => c = 'e' || c = 'E') rfl c rfl
        simpa using hstop
      rw [List.nil_append, exponent?, if_neg hc]
  | cons c cs =>
    obtain ⟨hc, sign, digits, rfl, hsign, hne, hdigits⟩ := h
    obtain ⟨d, ds, rfl⟩ := List.exists_cons_of_ne_nil hne
    have hd := hdigits d List.mem_cons_self
    have hsigns : ∀ e ∈ sign, (e = '+' || e = '-') = true := by
      rcases hsign with rfl | rfl | rfl <;> simp
    have hstop : Stops (fun e => e = '+' || e = '-') (d :: ds ++ rest) := by
      intro e he
      cases he
      have hplus : d ≠ '+' := by
        rintro rfl
        cases hd
      have hminus : d ≠ '-' := by
        rintro rfl
        cases hd
      simp [hplus, hminus]
    have hlen : sign.length ≤ 1 := by
      rcases hsign with rfl | rfl | rfl <;> simp
    have hdigit : Stops Char.isDigit rest := stops_of_ends hrest rfl
    rw [List.cons_append, exponent?, if_pos hc, List.append_assoc,
      takeWhile_append_of_stops hsigns hstop]
    simp only [List.drop_left, takeWhile_append_of_stops hdigits hdigit,
      dropWhile_append_of_stops hdigits hdigit, if_pos (And.intro hlen hne)]
    rfl

theorem head?_ne_minus_of_isWhole {digits rest : List Char} (h : IsWhole digits) :
    (digits ++ rest).head? ≠ some '-' := by
  cases digits with
  | nil => exact h.elim
  | cons c cs =>
    rintro ⟨⟩
    rcases h with ⟨hc, -⟩ | ⟨-, hall⟩
    · cases hc
    · cases hall '-' List.mem_cons_self

/-- A number is read in front of what ends it. -/
theorem number?_append {sign digits point exponent rest : List Char}
    (hsign : sign = [] ∨ sign = ['-']) (hdigits : IsWhole digits) (hpoint : IsFraction point)
    (hexponent : IsExponent exponent) (hrest : Ends rest) :
    number? (sign ++ (digits ++ (point ++ exponent)) ++ rest) =
      some (if sign = [] ∧ point = [] ∧ exponent = [] then .natural (Nat.ofDigitChars 10 digits 0)
        else .decimal (String.ofList (sign ++ digits ++ point ++ exponent)), rest) := by
  have hhead : (if (sign ++ (digits ++ (point ++ exponent)) ++ rest).head? = some '-' then ['-']
      else []) = sign := by
    rcases hsign with rfl | rfl
    · rw [List.nil_append, List.append_assoc, if_neg (head?_ne_minus_of_isWhole hdigits)]
    · rfl
  -- neither an exponent nor what ends the number prolongs what stands before it
  have hstop : ∀ p : Char → Bool, [' ', '\t', '\n', '\r', ',', ']', '\x7d'].any p = false →
      p 'e' = false → p 'E' = false → Stops p (exponent ++ rest) := by
    intro p hp he hE
    cases exponent with
    | nil => exact stops_of_ends hrest hp
    | cons c cs =>
      intro d hd
      cases hd
      rcases hexponent.1 with rfl | rfl
      · exact he
      · exact hE
  have hdigit : Stops Char.isDigit (exponent ++ rest) := hstop _ rfl rfl rfl
  have hafter : Stops Char.isDigit (point ++ (exponent ++ rest)) := by
    cases point with
    | nil => exact hdigit
    | cons c cs =>
      intro d hd
      cases hd
      rw [hpoint.1]
      rfl
  have hwhole : Text.whole? (digits ++ (point ++ (exponent ++ rest))) =
      some (digits, point ++ (exponent ++ rest)) := whole?_append hdigits hafter
  have hfraction : Text.fraction (point ++ (exponent ++ rest)) = (point, exponent ++ rest) :=
    fraction_append_of_stops hpoint hdigit (hstop _ rfl rfl rfl)
  rw [number?, hhead, List.append_assoc, List.drop_left]
  simp only [List.append_assoc, hwhole, hfraction, exponent?_append hexponent hrest,
    Option.bind_eq_bind, Option.bind_some]
  split <;> rfl

theorem number?_natural (n : Nat) {rest : List Char} (hrest : Ends rest) :
    number? (Nat.toDigits 10 n ++ rest) = some (.natural n, rest) := by
  have hsign : ([] : List Char) = [] ∨ ([] : List Char) = ['-'] := .inl rfl
  have hpoint : IsFraction [] := trivial
  have hexponent : IsExponent [] := trivial
  have h := number?_append hsign (isWhole_toDigits n) hpoint hexponent hrest
  simpa [Nat.ofDigitChars_toDigits] using h

theorem number?_decimal {spelling : String} (h : IsDecimal spelling.toList) {rest : List Char}
    (hrest : Ends rest) : number? (spelling.toList ++ rest) = some (.decimal spelling, rest) := by
  obtain ⟨sign, digits, point, exponent, heq, hsign, hdigits, hpoint, hexponent, hsome⟩ := h
  have hspelling : String.ofList (sign ++ digits ++ point ++ exponent) = spelling := by
    rw [← String.toList_inj, String.toList_ofList, heq]
    simp
  rw [heq, number?_append hsign hdigits hpoint hexponent hrest, if_neg hsome, hspelling]

/-! ## Blanks -/

/-- Blanks and nothing else. -/
abbrev AreBlank (cs : List Char) : Prop := ∀ c ∈ cs, isSpace c = true

section Blanks

variable {ws cs : List Char} {c : Char}

theorem skipSpace_append (h : AreBlank ws) (cs : List Char) :
    skipSpace (ws ++ cs) = skipSpace cs :=
  List.dropWhile_append_of_pos h

theorem skipSpace_cons (h : isSpace c = false) (cs : List Char) :
    skipSpace (c :: cs) = c :: cs := by
  rw [skipSpace, List.dropWhile_cons_of_neg (by simp [h])]

theorem skipSpace_append_cons (hws : AreBlank ws) (hc : isSpace c = false) (cs : List Char) :
    skipSpace (ws ++ c :: cs) = c :: cs := by
  rw [skipSpace_append hws, skipSpace_cons hc]

theorem ends_nil : Ends [] := by
  rintro c ⟨⟩

theorem ends_append (hws : AreBlank ws) (hcs : Ends cs) : Ends (ws ++ cs) := by
  intro c hc
  cases ws with
  | nil => exact hcs c hc
  | cons c ws =>
    cases hc
    exact .inl (hws c List.mem_cons_self)

theorem value?_append_blank (h : AreBlank ws) (n : Nat) (cs : List Char) :
    value? n (ws ++ cs) = value? n cs := by
  cases n with
  | zero => rw [value?, value?]
  | succ n => rw [value?, value?, skipSpace_append h]

end Blanks

/-! ## Layouts -/

/-- A layout adds nothing but blanks. -/
structure Layout.OnlyBlanks (layout : Layout) : Prop where
  gap : ∀ n, AreBlank (layout.gap n)
  colon : ∃ before after, layout.colon = before ++ ':' :: after ∧ AreBlank before ∧ AreBlank after

theorem Layout.onlyBlanks_compact : Layout.compact.OnlyBlanks where
  gap _ := List.forall_mem_nil _
  colon := ⟨[], [], rfl, List.forall_mem_nil _, List.forall_mem_nil _⟩

theorem Layout.onlyBlanks_pretty : Layout.pretty.OnlyBlanks where
  gap n := by
    refine List.forall_mem_cons.mpr ⟨rfl, fun c hc => ?_⟩
    rw [List.eq_of_mem_replicate hc]
    rfl
  colon := ⟨[], [' '], rfl, List.forall_mem_nil _, List.forall_mem_singleton.mpr rfl⟩

/-! ## Values -/

/-- A value as it can be read: its numbers are spelled as numbers, and the keys of its objects are
in increasing order. -/
inductive Proper : Json → Prop
  | null : Proper .null
  | bool (value : Bool) : Proper (.bool value)
  | natural (value : Nat) : Proper (.natural value)
  | decimal {spelling : String} (h : IsDecimal spelling.toList) : Proper (.decimal spelling)
  | string (text : String) : Proper (.string text)
  | array {items : List Json} (h : ∀ v ∈ items, Proper v) : Proper (.array items)
  | object {members : List (String × Json)} (sorted : members.Pairwise fun a b => a.1 < b.1)
      (h : ∀ m ∈ members, Proper m.2) : Proper (.object members)

section Values

variable {layout : Layout} {level n : Nat} {v : Json} {rest ws gap : List Char}

theorem length_write (v : Json) (level : Nat) (rest : List Char) :
    (write layout level v rest).length = (write layout level v []).length + rest.length := by
  rw [write_append, List.length_append]

theorem length_writeItems (vs : List Json) (level : Nat) (rest : List Char) :
    (writeItems layout level vs rest).length =
      (writeItems layout level vs []).length + rest.length := by
  rw [writeItems_append, List.length_append]

theorem length_writeMembers (ms : List (String × Json)) (level : Nat) (rest : List Char) :
    (writeMembers layout level ms rest).length =
      (writeMembers layout level ms []).length + rest.length := by
  rw [writeMembers_append, List.length_append]

/-- What a number begins with. -/
def StartsNumber (c : Char) : Prop := c = '-' ∨ c.isDigit = true

theorem ne_of_startsNumber {c : Char} (h : StartsNumber c) :
    ∀ d ∈ [' ', '\t', '\n', '\r', '\x22', '[', ']', '\x7b', 'n', 't', 'f'], c ≠ d := by
  rcases h with rfl | hc
  · simp
  · have hnone : [' ', '\t', '\n', '\r', '\x22', '[', ']', '\x7b', 'n', 't', 'f'].any Char.isDigit =
        false := rfl
    rintro d hd rfl
    exact List.any_eq_false.mp hnone c hd hc

theorem exists_cons_of_isWhole {cs : List Char} (h : IsWhole cs) :
    ∃ c ds, cs = c :: ds ∧ StartsNumber c := by
  cases cs with
  | nil => exact h.elim
  | cons c ds =>
    refine ⟨c, ds, rfl, .inr ?_⟩
    rcases h with ⟨rfl, -⟩ | ⟨-, hall⟩
    · rfl
    · exact hall c List.mem_cons_self

theorem exists_cons_of_isDecimal {cs : List Char} (h : IsDecimal cs) :
    ∃ c ds, cs = c :: ds ∧ StartsNumber c := by
  obtain ⟨sign, digits, point, exponent, rfl, hsign, hdigits, -⟩ := h
  rcases hsign with rfl | rfl
  · obtain ⟨c, ds, rfl, hc⟩ := exists_cons_of_isWhole hdigits
    exact ⟨c, _, rfl, hc⟩
  · exact ⟨'-', _, rfl, .inl rfl⟩

theorem value?_number {c : Char} (hc : StartsNumber c) (cs : List Char) :
    value? (n + 1) (c :: cs) = number? (c :: cs) := by
  have hne := ne_of_startsNumber hc
  simp only [List.forall_mem_cons] at hne
  have hspace : isSpace c = false := by simp [isSpace, hne]
  rw [value?, skipSpace_cons hspace]
  simp [hne]

theorem quote_cons (cs rest : List Char) :
    quote cs rest = '\x22' :: (cs.flatMap escape ++ '\x22' :: rest) := rfl

/-- A value begins with neither a blank nor a closing bracket. -/
theorem exists_cons_write (layout : Layout) (hv : v.Proper) (level : Nat) (rest : List Char) :
    ∃ c cs, write layout level v rest = c :: cs ∧ isSpace c = false ∧ c ≠ ']' := by
  have hnumber : ∀ {c : Char}, StartsNumber c → isSpace c = false ∧ c ≠ ']' := by
    intro c hc
    have hne := ne_of_startsNumber hc
    simp only [List.forall_mem_cons] at hne
    simp [isSpace, hne]
  cases hv with
  | null => exact ⟨'n', _, by rw [write]; rfl, rfl, by decide⟩
  | bool value => cases value <;> exact ⟨_, _, by rw [write]; rfl, rfl, by decide⟩
  | natural value =>
    obtain ⟨c, ds, hcs, hc⟩ := exists_cons_of_isWhole (isWhole_toDigits value)
    exact ⟨c, ds ++ rest, by rw [write, hcs]; rfl, hnumber hc⟩
  | decimal h =>
    obtain ⟨c, ds, hcs, hc⟩ := exists_cons_of_isDecimal h
    exact ⟨c, ds ++ rest, by rw [write, hcs]; rfl, hnumber hc⟩
  | string text => exact ⟨'\x22', _, by rw [write]; rfl, rfl, by decide⟩
  | @array items h =>
    cases items <;> exact ⟨'[', _, by rw [write], rfl, by decide⟩
  | @object members sorted h =>
    cases members <;> exact ⟨'\x7b', _, by rw [write], rfl, by decide⟩

/-- **A value is read back** in front of what ends it, in as many steps as its text has
characters. -/
def ReadsBack (layout : Layout) (v : Json) : Prop :=
  ∀ (level n : Nat) (rest : List Char), Ends rest → (write layout level v []).length ≤ n →
    value? n (write layout level v rest) = some (v, rest)

/-- The items of an array are read up to its bracket. -/
theorem items?_write (hl : layout.OnlyBlanks) (hgap : AreBlank gap) {vs : List Json}
    (hws : AreBlank ws) (hvs : ∀ w ∈ v :: vs, ReadsBack layout w)
    (hn : (write layout level v []).length + (writeItems layout level vs []).length < n) :
    items? n (ws ++ write layout level v (writeItems layout level vs (gap ++ ']' :: rest))) =
      some (v :: vs, rest) := by
  induction vs generalizing v n ws with
  | nil =>
    obtain ⟨n, rfl⟩ : ∃ m, n = m + 1 := Nat.exists_eq_add_one.mpr (Nat.zero_lt_of_lt hn)
    have hend : Ends (gap ++ ']' :: rest) := ends_append hgap (by rintro c ⟨⟩; simp)
    have hv := hvs v List.mem_cons_self level n _ hend (by omega)
    rw [items?, value?_append_blank hws, writeItems, hv]
    simp only [skipSpace_append_cons hgap (show isSpace ']' = false from rfl)]
    rfl
  | cons w vs ih =>
    obtain ⟨n, rfl⟩ : ∃ m, n = m + 1 := Nat.exists_eq_add_one.mpr (Nat.zero_lt_of_lt hn)
    obtain ⟨hv, hrest⟩ := List.forall_mem_cons.mp hvs
    rw [writeItems, List.length_cons, List.length_append,
      length_write w level (writeItems _ _ _ _)] at hn
    have hend : Ends (writeItems layout level (w :: vs) (gap ++ ']' :: rest)) := by
      rintro c ⟨⟩
      simp
    have hitems := ih (n := n) (hl.gap level) hrest (by omega)
    rw [items?, value?_append_blank hws, hv _ _ _ hend (by omega), writeItems]
    simp only [skipSpace_cons (show isSpace ',' = false from rfl), if_true, hitems]
    rfl

/-- One member is read and placed behind those with smaller keys. -/
theorem members?_member (hl : layout.OnlyBlanks) (hws : AreBlank ws) {k : String}
    {before : List (String × Json)} (hbefore : ∀ e ∈ before, e.1 < k)
    (hv : value? n (write layout level v rest) = some (v, rest)) {c : Char} {after : List Char}
    (hc : skipSpace rest = c :: after) :
    members? (n + 1) before (ws ++ quote k.toList (layout.colon ++ write layout level v rest)) =
      if c = ',' then members? n (before ++ [(k, v)]) after
      else if c = '\x7d' then some (before ++ [(k, v)], after)
      else none := by
  obtain ⟨left, right, hcolon, hleft, hright⟩ := hl.colon
  have hquote : ∀ cs, skipSpace (ws ++ quote k.toList cs) = quote k.toList cs :=
    fun _ => skipSpace_append_cons hws rfl _
  rw [members?, hquote, quote]
  simp only [List.cons_append, if_true, text?_quote, hcolon, List.append_assoc,
    skipSpace_append_cons hleft (show isSpace ':' = false from rfl), value?_append_blank hright,
    String.ofList_toList, hv, Dictionary.place_eq_append v hbefore, hc]

/-- The members of an object are read up to its brace. -/
theorem members?_write (hl : layout.OnlyBlanks) (hgap : AreBlank gap) {k : String}
    {ms before : List (String × Json)} (hws : AreBlank ws)
    (hsorted : (before ++ (k, v) :: ms).Pairwise fun a b => a.1 < b.1)
    (hms : ∀ m ∈ (k, v) :: ms, ReadsBack layout m.2)
    (hn : (write layout level v []).length + (writeMembers layout level ms []).length < n) :
    members? n before (ws ++ quote k.toList (layout.colon ++
        write layout level v (writeMembers layout level ms (gap ++ '\x7d' :: rest)))) =
      some (before ++ (k, v) :: ms, rest) := by
  have hbefore : ∀ e ∈ before, e.1 < k := fun e he =>
    (List.pairwise_append.mp hsorted).2.2 e he (k, v) List.mem_cons_self
  induction ms generalizing k v before n ws with
  | nil =>
    obtain ⟨n, rfl⟩ : ∃ m, n = m + 1 := Nat.exists_eq_add_one.mpr (Nat.zero_lt_of_lt hn)
    have hend : Ends (gap ++ '\x7d' :: rest) := ends_append hgap (by rintro c ⟨⟩; simp)
    have hv : ReadsBack layout v := hms (k, v) List.mem_cons_self
    rw [writeMembers, members?_member hl hws hbefore (hv _ _ _ hend (by omega))
      (skipSpace_append_cons hgap (show isSpace '\x7d' = false from rfl) rest)]
    rfl
  | cons m ms ih =>
    obtain ⟨n, rfl⟩ : ∃ m, n = m + 1 := Nat.exists_eq_add_one.mpr (Nat.zero_lt_of_lt hn)
    have hv : ReadsBack layout v := hms (k, v) List.mem_cons_self
    have hrest : ∀ m' ∈ m :: ms, ReadsBack layout m'.2 := (List.forall_mem_cons.mp hms).2
    have hend : Ends (writeMembers layout level (m :: ms) (gap ++ '\x7d' :: rest)) := by
      rintro c ⟨⟩
      simp
    rw [writeMembers, List.length_cons, List.length_append, quote_append, List.length_append,
      List.length_append, length_write m.2 level (writeMembers _ _ _ _)] at hn
    have hsorted' : (before ++ [(k, v)] ++ m :: ms).Pairwise fun a b => a.1 < b.1 := by
      simpa using hsorted
    have hmembers := ih (n := n) (hl.gap level) hsorted' hrest (by omega) fun e he =>
      (List.pairwise_append.mp hsorted').2.2 e he m List.mem_cons_self
    rw [writeMembers] at hend ⊢
    rw [members?_member hl hws hbefore (hv _ _ _ hend (by omega)) (skipSpace_cons rfl _),
      if_pos rfl, hmembers]
    simp

/-- A text of a value is not empty, so that there is a first step. -/
theorem readsBack_of_step (hv : v.Proper)
    (h : ∀ {level n rest}, Ends rest → (write layout level v []).length ≤ n + 1 →
      value? (n + 1) (write layout level v rest) = some (v, rest)) : ReadsBack layout v := by
  intro level n rest hrest hn
  obtain ⟨c, cs, hcs, -⟩ := exists_cons_write layout hv level []
  cases n with
  | zero =>
    rw [hcs] at hn
    cases hn
  | succ n => exact h hrest hn

/-- A number is read back if its spelling is. -/
theorem value?_spelling {cs : List Char} (hcs : ∃ c ds, cs = c :: ds ∧ StartsNumber c)
    (h : number? (cs ++ rest) = some (v, rest)) : value? (n + 1) (cs ++ rest) = some (v, rest) := by
  obtain ⟨c, ds, rfl, hc⟩ := hcs
  exact (value?_number hc _).trans h

theorem value?_array {c : Char} {cs ds : List Char} (hws : AreBlank ws) (hcs : cs = c :: ds)
    (hspace : isSpace c = false) (hc : c ≠ ']') :
    value? (n + 1) ('[' :: (ws ++ cs)) = (items? n (ws ++ cs)).map fun r => (.array r.1, r.2) := by
  rw [value?, skipSpace_cons rfl]
  simp only [hcs, skipSpace_append_cons hws hspace, if_neg hc]
  rfl

theorem value?_object {c : Char} {cs ds : List Char} (hws : AreBlank ws) (hcs : cs = c :: ds)
    (hspace : isSpace c = false) (hc : c ≠ '\x7d') :
    value? (n + 1) ('\x7b' :: (ws ++ cs)) =
      (members? n [] (ws ++ cs)).map fun r => (.object r.1, r.2) := by
  rw [value?, skipSpace_cons rfl]
  simp only [hcs, skipSpace_append_cons hws hspace, if_neg hc]
  rfl

/-- An array is read back if its items are. -/
theorem readsBack_array (hl : layout.OnlyBlanks) {items : List Json}
    (hproper : (array items).Proper) (hitems : ∀ w ∈ items, ReadsBack layout w) :
    ReadsBack layout (.array items) := by
  refine readsBack_of_step hproper fun {level n rest} _ hn => ?_
  cases items with
  | nil =>
    rw [write]
    rfl
  | cons v vs =>
    rw [write, List.length_cons, List.length_append, length_write, length_writeItems] at hn
    have hroom : (write layout (level + 1) v []).length +
        (writeItems layout (level + 1) vs []).length < n := by
      simp only [List.length_append, List.length_cons] at hn
      omega
    have hv : v.Proper := by
      cases hproper with
      | array h => exact h v List.mem_cons_self
    obtain ⟨c, cs, hcs, hc, hclose⟩ := exists_cons_write layout hv (level + 1)
      (writeItems layout (level + 1) vs (layout.gap level ++ ']' :: rest))
    rw [write, value?_array (hl.gap (level + 1)) hcs hc hclose,
      items?_write hl (hl.gap level) (hl.gap (level + 1)) hitems hroom]
    rfl

/-- An object is read back if the values of its members are. -/
theorem readsBack_object (hl : layout.OnlyBlanks) {members : List (String × Json)}
    (hproper : (object members).Proper) (hmembers : ∀ m ∈ members, ReadsBack layout m.2) :
    ReadsBack layout (.object members) := by
  refine readsBack_of_step hproper fun {level n rest} _ hn => ?_
  cases members with
  | nil =>
    rw [write]
    rfl
  | cons m ms =>
    rw [write, List.length_cons, List.length_append, quote_append, List.length_append,
      List.length_append, length_write, length_writeMembers] at hn
    have hroom : (write layout (level + 1) m.2 []).length +
        (writeMembers layout (level + 1) ms []).length < n := by
      simp only [List.length_append, List.length_cons] at hn
      omega
    have hsorted : (([] : List (String × Json)) ++ m :: ms).Pairwise fun a b => a.1 < b.1 := by
      cases hproper with
      | object sorted => exact sorted
    rw [write, value?_object (hl.gap (level + 1)) (quote_cons _ _) rfl (by decide),
      members?_write hl (hl.gap level) (hl.gap (level + 1)) hsorted hmembers hroom]
    rfl

/-- A proper value is read back in a layout that adds nothing but blanks. -/
theorem readsBack_of_proper (hl : layout.OnlyBlanks) (hv : v.Proper) : ReadsBack layout v := by
  induction hv with
  | null =>
    refine readsBack_of_step .null fun _ _ => ?_
    rw [write]
    rfl
  | bool value =>
    refine readsBack_of_step (.bool value) fun _ _ => ?_
    cases value <;> rw [write] <;> rfl
  | natural value =>
    refine readsBack_of_step (.natural value) fun hrest _ => ?_
    rw [write]
    exact value?_spelling (exists_cons_of_isWhole (isWhole_toDigits value))
      (number?_natural value hrest)
  | decimal h =>
    refine readsBack_of_step (.decimal h) fun hrest _ => ?_
    rw [write]
    exact value?_spelling (exists_cons_of_isDecimal h) (number?_decimal h hrest)
  | string text =>
    refine readsBack_of_step (.string text) fun _ _ => ?_
    rw [write, quote, value?, List.cons_append, skipSpace_cons rfl]
    simp only [if_true, text?_quote, Option.map_some, String.ofList_toList]
  | array h ih => exact readsBack_array hl (.array h) ih
  | object sorted h ih => exact readsBack_object hl (.object sorted h) ih

/-- **The text of a value is read as the value**, in any layout of blanks. -/
theorem parse?_render (hl : layout.OnlyBlanks) (hv : v.Proper) :
    parse? (v.render layout) = some v := by
  have hread := readsBack_of_proper hl hv 0 (2 * (write layout 0 v []).length + 2) [] ends_nil
    (by omega)
  rw [parse?, render, String.toList_ofList, hread]
  rfl

end Values

end Json

/-! ## Trees -/

namespace Expr

theorem proper_tagged {tag : Tag} {payload : Json} (h : payload.Proper) :
    (tagged tag payload).Proper :=
  .object (List.pairwise_singleton _ _) (List.forall_mem_singleton.mpr h)

theorem proper_payload {body : Json} (h : body.Proper) (m : Multiplier) :
    (m.payload body).Proper := by
  cases m with
  | optional | zeroOrMore | oneOrMore | commaSeparated => exact h
  | counted least most =>
    refine .object ?_ ?_
    · have hkeys : (["end", "expression", "start"] : List String).Pairwise (· < ·) := by decide
      exact List.pairwise_map.mp hkeys
    · rintro m hm
      simp only [List.mem_cons, List.not_mem_nil, or_false] at hm
      rcases hm with rfl | rfl | rfl
      · exact .natural _
      · exact h
      · exact .natural _

/-- What an expression is encoded as can be read. -/
theorem proper_toJson (e : Expr) : e.toJson.Proper := by
  induction e using inductionOn with
  | leaf l => cases l <;> exact proper_tagged (.string _)
  | group body ih => exact proper_tagged ih
  | multiplied body m ih =>
    rw [toJson_multiplied]
    exact proper_tagged (proper_payload ih m)
  | combined c operands ih =>
    rw [toJson_combined]
    exact proper_tagged (.array (List.forall_mem_map.mpr ih))

end Expr

namespace Action

theorem gives_tree (input : String) (layout : Json.Layout) :
    Gives (tree input layout)
      ((Expr.parse input).mapError Failure.parse >>= fun e => pure (e.toJson.render layout)) :=
  gives_bind (gives_parse input) fun _ => gives_pure _

end Action

/-- Both layouts of the tree of an expression are texts of one JSON value, and that value is decoded
as the expression. -/
theorem tree_is_read_back {input : String} {e : Expr} (h : Expr.parse input = .ok e) :
    ∃ compact pretty v, (Action.tree input .compact).result = .ok compact ∧
      (Action.tree input .pretty).result = .ok pretty ∧
      Json.parse? compact = some v ∧ Json.parse? pretty = some v ∧ Expr.ofJson v = .ok e := by
  have hresult : ∀ layout, (Action.tree input layout).result = .ok (e.toJson.render layout) := by
    intro layout
    have hgives := Action.gives_tree input layout
    rw [h] at hgives
    exact Action.result_of_gives hgives
  have hflaw : e.firstFlaw? = none := Expr.firstFlaw?_eq_none_iff.mpr (wellFormed_of_parse h)
  refine ⟨_, _, e.toJson, hresult .compact, hresult .pretty,
    Json.parse?_render Json.Layout.onlyBlanks_compact (Expr.proper_toJson e),
    Json.parse?_render Json.Layout.onlyBlanks_pretty (Expr.proper_toJson e), ?_⟩
  rw [Expr.ofJson_toJson, hflaw, Expr.outcome]

/-- A quote, a backslash, a tab, another control character and a letter beyond ASCII, in ranges
within ranges. -/
theorem tree_is_read_back_escaped :
    let input := "[‘\x22\x5c’\x7b2\x7d \x27\t\x01é\x27]\x7b0,3\x7d"
    let e : Expr := .multiplied (.group (.combined .juxtaposition
      [.multiplied (.leaf (.quoted "\x22\x5c")) (.counted 2 2), .leaf (.quoted "\t\x01é")]))
      (.counted 0 3)
    Expr.parse input = .ok e ∧
      ∃ compact pretty v, (Action.tree input .compact).result = .ok compact ∧
        (Action.tree input .pretty).result = .ok pretty ∧ compact ≠ pretty ∧
        Json.parse? compact = some v ∧ Json.parse? pretty = some v ∧ Expr.ofJson v = .ok e := by
  intro input e
  have he : Expr.parse input = .ok e := by decide +kernel
  obtain ⟨compact, pretty, v, hcompact, hpretty, hread⟩ := tree_is_read_back he
  refine ⟨he, compact, pretty, v, hcompact, hpretty, ?_, hread⟩
  rintro rfl
  have hne : (Action.tree input .compact).result ≠ (Action.tree input .pretty).result := by
    decide +kernel
  exact hne (hcompact.trans hpretty.symm)

end ValueGrammar
