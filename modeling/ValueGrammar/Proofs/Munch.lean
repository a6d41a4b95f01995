import Mathlib.Computability.Language
import ValueGrammar.Proofs.Scanning

/-!
# The longest lexeme

Each pattern stands for a language of texts, put together from classes of characters by
concatenation, union and repetition. Cutting by a pattern takes the longest of its texts that a text
begins with. Of two patterns only `||` and `|` ever match in front of the same text, so the first
pattern that matches is the one with the longest match of all, and the order in which they are tried
matters for these two only.

`Munch` is one call of a tokenizer that knows the languages of the patterns and takes the longest
lexeme of them all, again and again while it has no token. It has no order of patterns.

Headlines:
* **`split?_eq_some_iff`**: cutting by a pattern takes the longest text of its language.
* **`first?_eq_some_iff`**: the first match is the longest match.
* **`firstIn_eq_first?_iff`**: any order with `||` before `|` finds the same.
* **`first_match_is_longest_match`**: a lexer gives the answers of the longest lexemes.
-/

namespace ValueGrammar

open scoped Computability

variable {cs w v lexeme rest : List Char} {t : Token}

/-! ## The languages of the patterns -/

namespace Pattern

variable {p q : Pattern} {inner closing : Char → Bool}

/-- The texts of one character of a class. -/
def one (inner : Char → Bool) : Language Char := {w | ∃ c, w = [c] ∧ inner c = true}

/-- The texts of one or more characters of a class. -/
def oneOrMore (inner : Char → Bool) : Language Char := one inner * (one inner)∗

/-- An opening character, a text between, and a closing character. -/
def between (opening : Char) (inner : Language Char) (closing : Char → Bool) : Language Char :=
  {[opening]} * inner * one closing

/-- The texts that a pattern stands for. -/
def language : Pattern → Language Char
  | .blanks => oneOrMore Text.isBlank
  | .comment => {['/', '/']} * (one (· ≠ '\n'))∗
  | .identifier => one isNameStart * (one isNamePart)∗
  | .typeRef => between '<' (oneOrMore isNameStart) (· = '>')
  | .doubleQuoted => between '\x22' (oneOrMore (· ≠ '\x22')) (· = '\x22')
  | .singleQuoted => between '\x27' (oneOrMore (· ≠ '\x27')) (· = '\x27')
  | .curlyQuoted =>
    between '‘' (one fun c => c ≠ '‘' && c ≠ '’')∗ fun c => c = '‘' || c = '’'
  | .doubleBar => {['|', '|']}
  | .bar => {['|']}
  | .doubleAmpersand => {['&', '&']}
  | .star => {['*']}
  | .plus => {['+']}
  | .question => {['?']}
  | .openBrace => {['\x7b']}
  | .closeBrace => {['\x7d']}
  | .openBracket => {['[']}
  | .closeBracket => {[']']}
  | .number =>
    ({['0']} + one (fun c => c.isDigit && c ≠ '0') * (one Char.isDigit)∗) *
      (1 + {['.']} * oneOrMore Char.isDigit)
  | .hash => {['#']}
  | .comma => {[',']}

theorem mem_one : w ∈ one inner ↔ ∃ c, w = [c] ∧ inner c = true := Iff.rfl

theorem mem_one_mul {l : Language Char} :
    w ∈ one inner * l ↔ ∃ c ds, w = c :: ds ∧ inner c = true ∧ ds ∈ l := by
  rw [Language.mem_mul]
  constructor
  · rintro ⟨_, ⟨c, rfl, hc⟩, ds, hds, rfl⟩
    exact ⟨c, ds, rfl, hc, hds⟩
  · rintro ⟨c, ds, rfl, hc, hds⟩
    exact ⟨[c], ⟨c, rfl, hc⟩, ds, hds, rfl⟩

theorem mem_kstar_one : w ∈ (one inner)∗ ↔ ∀ c ∈ w, inner c = true := by
  rw [Language.mem_kstar]
  constructor
  · rintro ⟨texts, rfl, htexts⟩ c hc
    obtain ⟨text, htext, hc⟩ := List.mem_flatten.mp hc
    obtain ⟨d, rfl, hd⟩ := htexts text htext
    rwa [List.mem_singleton.mp hc]
  · intro h
    refine ⟨w.map fun c => [c], by rw [← List.flatMap_def, List.flatMap_singleton'], ?_⟩
    exact List.forall_mem_map.mpr fun c hc => ⟨c, rfl, h c hc⟩

theorem mem_oneOrMore : w ∈ oneOrMore inner ↔ w ≠ [] ∧ ∀ c ∈ w, inner c = true := by
  rw [oneOrMore, mem_one_mul]
  simp only [mem_kstar_one]
  constructor
  · rintro ⟨c, ds, rfl, hc, hds⟩
    exact ⟨List.cons_ne_nil c ds, List.forall_mem_cons.mpr ⟨hc, hds⟩⟩
  · rintro ⟨hne, h⟩
    obtain ⟨c, ds, rfl⟩ := List.exists_cons_of_ne_nil hne
    exact ⟨c, ds, rfl, List.forall_mem_cons.mp h⟩

theorem mem_singleton_mul {text : List Char} {l : Language Char} :
    w ∈ ({text} : Language Char) * l ↔ ∃ ds ∈ l, w = text ++ ds := by
  rw [Language.mem_mul]
  constructor
  · rintro ⟨_, rfl, ds, hds, rfl⟩
    exact ⟨ds, hds, rfl⟩
  · rintro ⟨ds, hds, rfl⟩
    exact ⟨text, rfl, ds, hds, rfl⟩

theorem mem_between {opening : Char} {l : Language Char} : w ∈ between opening l closing ↔
    ∃ ds ∈ l, ∃ d, w = opening :: (ds ++ [d]) ∧ closing d = true := by
  rw [between, mul_assoc, mem_singleton_mul]
  simp only [Language.mem_mul, mem_one]
  constructor
  · rintro ⟨_, ⟨ds, hds, _, ⟨d, rfl, hd⟩, rfl⟩, rfl⟩
    exact ⟨ds, hds, d, rfl, hd⟩
  · rintro ⟨ds, hds, d, rfl, hd⟩
    exact ⟨_, ⟨ds, hds, _, ⟨d, rfl, hd⟩, rfl⟩, rfl⟩

theorem mem_whole : w ∈ ({['0']} : Language Char) +
    one (fun c => c.isDigit && c ≠ '0') * (one Char.isDigit)∗ ↔ Lexeme.IsWhole w := by
  rw [Language.mem_add, mem_one_mul]
  simp only [mem_kstar_one, Bool.and_eq_true, decide_eq_true_eq]
  cases w with
  | nil => exact iff_of_false (by rintro (h | ⟨c, ds, h, -⟩) <;> cases h) id
  | cons c cs =>
    constructor
    · rintro (h | ⟨_, _, h, ⟨hc, hne⟩, hcs⟩)
      · obtain ⟨rfl, rfl⟩ := List.cons_eq_cons.mp h
        exact .inl ⟨rfl, rfl⟩
      · obtain ⟨rfl, rfl⟩ := List.cons_eq_cons.mp h
        exact .inr ⟨hne, List.forall_mem_cons.mpr ⟨hc, hcs⟩⟩
    · rintro (⟨rfl, rfl⟩ | ⟨hne, h⟩)
      · exact .inl rfl
      · obtain ⟨hc, hcs⟩ := List.forall_mem_cons.mp h
        exact .inr ⟨c, cs, rfl, ⟨hc, hne⟩, hcs⟩

theorem mem_fraction :
    w ∈ (1 : Language Char) + {['.']} * oneOrMore Char.isDigit ↔ Lexeme.IsFraction w := by
  rw [Language.mem_add, Language.mem_one, mem_singleton_mul]
  simp only [mem_oneOrMore]
  cases w with
  | nil => exact iff_of_true (.inl rfl) trivial
  | cons c cs =>
    constructor
    · rintro (h | ⟨ds, h, heq⟩)
      · cases h
      · obtain ⟨rfl, rfl⟩ := List.cons_eq_cons.mp heq
        exact ⟨rfl, h⟩
    · rintro ⟨rfl, h⟩
      exact .inr ⟨cs, h, rfl⟩

theorem mem_number : w ∈ number.language ↔ Lexeme.IsNumeral w := by
  rw [language, Language.mem_mul]
  constructor
  · rintro ⟨whole, hwhole, tail, htail, rfl⟩
    exact ⟨whole, tail, rfl, mem_whole.mp hwhole, mem_fraction.mp htail⟩
  · rintro ⟨whole, tail, rfl, hwhole, htail⟩
    exact ⟨whole, mem_whole.mpr hwhole, tail, mem_fraction.mpr htail, rfl⟩

end Pattern

/-! ## Cutting the longest text -/

namespace Lexeme

variable {inner closing first next : Char → Bool} {l : Language Char}

/-- **Cutting takes the longest text of a language** that a text begins with: what is cut off is in
the language, and a text of the language is cut off, or a longer one that begins with it. -/
structure CutsLongest (cut : List Char → Cut) (l : Language Char) : Prop where
  sound {cs lexeme rest : List Char} (h : cut cs = some (lexeme, rest)) : lexeme ∈ l
  complete {w : List Char} (h : w ∈ l) (rest : List Char) :
    ∃ more rest', cut (w ++ rest) = some (w ++ more, rest')

theorem cutsLongest_run : CutsLongest (run first next) (Pattern.one first * (Pattern.one next)∗) where
  sound h := by
    obtain ⟨c, ds, rfl, hc, hds⟩ := exists_of_run h
    exact Pattern.mem_one_mul.mpr ⟨c, ds, rfl, hc, Pattern.mem_kstar_one.mpr hds⟩
  complete h rest := by
    obtain ⟨c, ds, rfl, hc, hds⟩ := Pattern.mem_one_mul.mp h
    refine ⟨rest.takeWhile next, rest.dropWhile next, ?_⟩
    rw [List.cons_append, run, if_pos hc,
      List.takeWhile_append_of_pos (Pattern.mem_kstar_one.mp hds),
      List.dropWhile_append_of_pos (Pattern.mem_kstar_one.mp hds), List.cons_append]

theorem cutsLongest_fixed (text : List Char) : CutsLongest (fixed text) {text} where
  sound h := (fixed_eq h).2
  complete := by
    rintro _ rfl rest
    exact ⟨[], rest, by rw [fixed_append, List.append_nil]⟩

theorem cutsLongest_comment :
    CutsLongest comment ({['/', '/']} * (Pattern.one (· ≠ '\n'))∗) where
  sound h := by
    obtain ⟨ds, rfl, hds, -⟩ := exists_of_comment h
    exact Pattern.mem_singleton_mul.mpr
      ⟨ds, Pattern.mem_kstar_one.mpr fun d hd => decide_eq_true (hds d hd), rfl⟩
  complete h rest := by
    obtain ⟨ds, hds, rfl⟩ := Pattern.mem_singleton_mul.mp h
    refine ⟨rest.takeWhile (· ≠ '\n'), rest.dropWhile (· ≠ '\n'), ?_⟩
    rw [comment, List.append_assoc, fixed_append, Option.map_some,
      List.takeWhile_append_of_pos (Pattern.mem_kstar_one.mp hds),
      List.dropWhile_append_of_pos (Pattern.mem_kstar_one.mp hds), List.append_assoc]

/-- A closing character is no inner one, so nothing longer can be cut off. -/
theorem cutsLongest_enclosed {opening : Char} {blankAllowed : Bool}
    (hl : ∀ ds, ds ∈ l ↔ (blankAllowed = true ∨ ds ≠ []) ∧ ∀ c ∈ ds, inner c = true)
    (hclose : ∀ d, closing d = true → inner d = false) :
    CutsLongest (enclosed opening inner closing blankAllowed)
      (Pattern.between opening l closing) where
  sound h := by
    obtain ⟨ds, d, rfl, hds, hd, hb⟩ := exists_of_enclosed h
    exact Pattern.mem_between.mpr ⟨ds, (hl ds).mpr ⟨hb, hds⟩, d, rfl, hd⟩
  complete h rest := by
    obtain ⟨ds, hds, d, rfl, hd⟩ := Pattern.mem_between.mp h
    obtain ⟨hb, hds⟩ := (hl ds).mp hds
    exact ⟨[], rest, by rw [enclosed_append hds (hclose d hd) hd hb, List.append_nil]⟩

theorem whole?_longest (h : IsWhole w) (rest : List Char) :
    ∃ more rest', Text.whole? (w ++ rest) = some (w ++ more, rest') := by
  cases w with
  | nil => exact h.elim
  | cons c cs =>
    rw [List.cons_append, Text.whole?]
    rcases h with ⟨rfl, rfl⟩ | ⟨hc, hcs⟩
    · exact ⟨[], rest, if_pos rfl⟩
    · refine ⟨rest.takeWhile Char.isDigit, rest.dropWhile Char.isDigit, ?_⟩
      rw [if_neg hc, if_pos (hcs c List.mem_cons_self), ← List.cons_append,
        List.takeWhile_append_of_pos hcs, List.dropWhile_append_of_pos hcs]

theorem fraction_longest {c : Char} (h : IsFraction (c :: cs)) (rest : List Char) :
    ∃ more rest', Text.fraction (c :: cs ++ rest) = (c :: cs ++ more, rest') := by
  obtain ⟨rfl, hne, hcs⟩ := h
  refine ⟨rest.takeWhile Char.isDigit, rest.dropWhile Char.isDigit, ?_⟩
  rw [List.cons_append, Text.fraction, List.takeWhile_append_of_pos hcs,
    List.dropWhile_append_of_pos hcs, if_pos ⟨rfl, List.append_ne_nil_of_left_ne_nil hne _⟩,
    List.cons_append]

theorem cutsLongest_number : CutsLongest number Pattern.number.language where
  sound h := Pattern.mem_number.mpr (isNumeral_of_number h)
  complete h rest := by
    obtain ⟨whole, tail, rfl, hwhole, htail⟩ := Pattern.mem_number.mp h
    cases tail with
    | nil =>
      obtain ⟨more, rest', hcut⟩ := whole?_longest hwhole rest
      rw [List.append_nil, number, hcut]
      exact ⟨more ++ (Text.fraction rest').1, _, by rw [Option.map_some, List.append_assoc]⟩
    | cons c cs =>
      -- the point ends the digits in front of it
      have hstops : Stops Char.isDigit (c :: cs ++ rest) := by
        rintro d ⟨⟩
        rw [htail.1]
        rfl
      obtain ⟨more, rest', hfraction⟩ := fraction_longest htail rest
      rw [number, List.append_assoc, whole?_append hwhole hstops, Option.map_some, hfraction]
      exact ⟨more, rest', by rw [List.append_assoc]⟩

end Lexeme

namespace Pattern

variable {p q : Pattern}

/-- Cutting by a pattern takes the longest text of its language. -/
theorem cutsLongest_split? (p : Pattern) : Lexeme.CutsLongest p.split? p.language := by
  cases p with
  | blanks | identifier => exact Lexeme.cutsLongest_run
  | comment => exact Lexeme.cutsLongest_comment
  | typeRef =>
    exact Lexeme.cutsLongest_enclosed (fun ds => by simp [mem_oneOrMore]) (by simp [isNameStart])
  | doubleQuoted | singleQuoted =>
    exact Lexeme.cutsLongest_enclosed (fun ds => by simp [mem_oneOrMore]) (by simp)
  | curlyQuoted => exact Lexeme.cutsLongest_enclosed (fun ds => by simp [mem_kstar_one]) (by simp)
  | number => exact Lexeme.cutsLongest_number
  | _ => exact Lexeme.cutsLongest_fixed _

theorem mem_language_of_split? (h : p.split? cs = some (lexeme, rest)) : lexeme ∈ p.language :=
  (cutsLongest_split? p).sound h

theorem exists_split? (h : w ∈ p.language) (hw : w <+: cs) :
    ∃ lexeme rest, p.split? cs = some (lexeme, rest) ∧ w.length ≤ lexeme.length := by
  obtain ⟨behind, rfl⟩ := hw
  obtain ⟨more, rest, hcut⟩ := (cutsLongest_split? p).complete h behind
  exact ⟨_, rest, hcut, by rw [List.length_append]; exact Nat.le_add_right _ _⟩

theorem prefix_of_split? (h : p.split? cs = some (lexeme, rest)) : lexeme <+: cs :=
  ⟨rest, append_of_split? h⟩

/-- Two texts that begin another one and are equally long are the same, and so is what follows. -/
theorem eq_of_prefixes {lexeme' rest' : List Char} (h : lexeme ++ rest = cs)
    (h' : lexeme' ++ rest' = cs) (hlen : lexeme.length = lexeme'.length) :
    (lexeme, rest) = (lexeme', rest') :=
  Prod.ext_iff.mpr (List.append_inj (h.trans h'.symm) hlen)

/-- **Cutting by a pattern takes the longest text** of its language. -/
theorem split?_eq_some_iff : p.split? cs = some (lexeme, rest) ↔ lexeme ++ rest = cs ∧
    lexeme ∈ p.language ∧ ∀ w ∈ p.language, w <+: cs → w.length ≤ lexeme.length := by
  constructor
  · intro h
    refine ⟨append_of_split? h, mem_language_of_split? h, fun w hw hcs => ?_⟩
    obtain ⟨lexeme', rest', h', hle⟩ := exists_split? hw hcs
    cases h.symm.trans h'
    exact hle
  · rintro ⟨happ, hmem, hlongest⟩
    obtain ⟨lexeme', rest', h, hle⟩ := exists_split? hmem ⟨rest, happ⟩
    have hge := hlongest lexeme' (mem_language_of_split? h) (prefix_of_split? h)
    rw [h, eq_of_prefixes happ (append_of_split? h) (Nat.le_antisymm hle hge)]

/-! ## The longest match of all -/

/-- **The longest match of all**: a text of a pattern in front of another one, such that no text of
any pattern in front of it is longer. -/
structure IsLongest (p : Pattern) (lexeme rest cs : List Char) : Prop where
  append : lexeme ++ rest = cs
  mem : lexeme ∈ p.language
  longest (q : Pattern) (w : List Char) (hw : w ∈ q.language) (hcs : w <+: cs) :
    w.length ≤ lexeme.length

/-- At most one pattern has a text in front of another one, but for `||` and `|`. -/
theorem eq_or_bar_of_mem (hw : w ∈ p.language) (hwcs : w <+: cs) (hv : v ∈ q.language)
    (hvcs : v <+: cs) :
    p = q ∨ (p = .bar ∧ q = .doubleBar) ∨ (p = .doubleBar ∧ q = .bar) := by
  obtain ⟨_, _, hp, -⟩ := exists_split? hw hwcs
  obtain ⟨_, _, hq, -⟩ := exists_split? hv hvcs
  exact eq_or_bar_of_split? hp hq

/-- If `||` matches, it is found before `|`. -/
theorem first?_of_doubleBar (h : doubleBar.split? cs = some (lexeme, rest)) :
    first? cs = some (doubleBar, lexeme, rest) :=
  first?_of_split? h (by simp)

theorem isLongest_of_first? (h : first? cs = some (p, lexeme, rest)) :
    IsLongest p lexeme rest cs := by
  have hp := split?_of_first? h
  obtain ⟨happ, hmem, hlongest⟩ := split?_eq_some_iff.mp hp
  refine ⟨happ, hmem, fun q w hw hcs => ?_⟩
  rcases eq_or_bar_of_mem hmem (prefix_of_split? hp) hw hcs with rfl | ⟨rfl, rfl⟩ | ⟨rfl, rfl⟩
  · exact hlongest w hw hcs
  · obtain ⟨_, _, hbars, -⟩ := exists_split? hw hcs
    cases h.symm.trans (first?_of_doubleBar hbars)
  · obtain rfl : w = ['|'] := hw
    exact List.length_pos_iff.mpr (ne_nil_of_split? hp)

/-- The longest match has one pattern only. -/
theorem IsLongest.unique {lexeme' rest' : List Char} (hp : IsLongest p lexeme rest cs)
    (hq : IsLongest q lexeme' rest' cs) : (p, lexeme, rest) = (q, lexeme', rest') := by
  have hlen := Nat.le_antisymm (hq.longest p lexeme hp.mem ⟨rest, hp.append⟩)
    (hp.longest q lexeme' hq.mem ⟨rest', hq.append⟩)
  obtain ⟨rfl, rfl⟩ := Prod.mk.inj (eq_of_prefixes hp.append hq.append hlen)
  rcases eq_or_bar_of_mem hp.mem ⟨rest, hp.append⟩ hq.mem ⟨rest, hq.append⟩ with
    rfl | ⟨rfl, rfl⟩ | ⟨rfl, rfl⟩
  · rfl
  · cases hp.mem.symm.trans hq.mem
  · cases hp.mem.symm.trans hq.mem

/-- Where a text of a pattern begins another one, there is a first match. -/
theorem exists_first? (hw : w ∈ p.language) (hcs : w <+: cs) :
    ∃ q lexeme rest, first? cs = some (q, lexeme, rest) := by
  obtain ⟨_, _, h, -⟩ := exists_split? hw hcs
  obtain ⟨⟨q, lexeme, rest⟩, hq⟩ := Option.isSome_iff_exists.mp (isSome_first? h)
  exact ⟨q, lexeme, rest, hq⟩

/-- **The first match is the longest match** of all patterns. -/
theorem first?_eq_some_iff :
    first? cs = some (p, lexeme, rest) ↔ IsLongest p lexeme rest cs := by
  refine ⟨isLongest_of_first?, fun h => ?_⟩
  obtain ⟨q, lexeme', rest', hq⟩ := exists_first? h.mem ⟨rest, h.append⟩
  rw [hq, h.unique (isLongest_of_first? hq)]

/-- There is no first match where no pattern has a text. -/
theorem first?_eq_none_iff :
    first? cs = none ↔ ∀ (p : Pattern), ∀ w ∈ p.language, ¬ w <+: cs := by
  constructor
  · intro h p w hw hcs
    obtain ⟨q, lexeme, rest, hq⟩ := exists_first? hw hcs
    cases h.symm.trans hq
  · intro h
    refine Option.eq_none_iff_forall_ne_some.mpr ?_
    rintro ⟨p, lexeme, rest⟩ hf
    have hlongest := isLongest_of_first? hf
    exact h p lexeme hlongest.mem ⟨rest, hlongest.append⟩

/-! ## The order of the patterns -/

/-- The first of some patterns that matches in front of a text, its lexeme, and what follows it. -/
def firstIn (order : List Pattern) (cs : List Char) : Option (Pattern × List Char × List Char) :=
  order.findSome? fun p => (p.split? cs).map fun r => (p, r)

/-- What is found first matches, and nothing before it does. -/
theorem firstIn_eq_some_iff {order : List Pattern} :
    firstIn order cs = some (p, lexeme, rest) ↔ ∃ before after, order = before ++ p :: after ∧
      p.split? cs = some (lexeme, rest) ∧ ∀ q ∈ before, q.split? cs = none := by
  rw [firstIn, List.findSome?_eq_some_iff]
  simp only [Option.map_eq_some_iff, Option.map_eq_none_iff]
  constructor
  · rintro ⟨before, q, after, horder, ⟨r, hr, heq⟩, hbefore⟩
    cases heq
    exact ⟨before, after, horder, hr, hbefore⟩
  · rintro ⟨before, after, horder, hp, hbefore⟩
    exact ⟨before, p, after, horder, ⟨_, hp, rfl⟩, hbefore⟩

theorem idxOf_lt_idxOf {order before after : List Pattern} (horder : order = before ++ p :: after)
    (hp : p ∉ before) (hq : q ∉ before) (hne : p ≠ q) : order.idxOf p < order.idxOf q := by
  rw [horder, List.idxOf_append_of_notMem hp, List.idxOf_append_of_notMem hq,
    List.idxOf_cons_self, List.idxOf_cons_ne _ hne]
  exact Nat.lt_add_of_pos_right (Nat.succ_pos _)

/-- With `||` before `|`, what is found first does not depend on the order. -/
theorem firstIn_of_bars {order : List Pattern} (hall : ∀ p, p ∈ order)
    (hbars : order.idxOf .doubleBar < order.idxOf .bar) (cs : List Char) :
    firstIn order cs = first? cs := by
  cases hf : first? cs with
  | none =>
    refine List.findSome?_eq_none_iff.mpr fun p _ => Option.map_eq_none_iff.mpr ?_
    refine Option.eq_none_iff_forall_ne_some.mpr ?_
    rintro ⟨lexeme, rest⟩ hp
    have hsome := isSome_first? hp
    rw [hf] at hsome
    cases hsome
  | some r =>
    obtain ⟨p, lexeme, rest⟩ := r
    have hp := split?_of_first? hf
    have hsome : (firstIn order cs).isSome :=
      List.findSome?_isSome_iff.mpr ⟨p, hall p, by rw [hp]; rfl⟩
    obtain ⟨⟨q, lexeme', rest'⟩, hq⟩ := Option.isSome_iff_exists.mp hsome
    rw [hq]
    obtain ⟨before, after, horder, hsplit, hbefore⟩ := firstIn_eq_some_iff.mp hq
    rcases eq_or_bar_of_split? hp hsplit with rfl | ⟨rfl, rfl⟩ | ⟨rfl, rfl⟩
    · rw [Option.some.inj (hp.symm.trans hsplit)]
    · cases hf.symm.trans (first?_of_doubleBar hsplit)
    · -- nothing that matches stands before the bar, not even `||`
      have hlt := idxOf_lt_idxOf horder (q := .doubleBar)
        (fun h => by cases (hbefore _ h).symm.trans hsplit)
        (fun h => by cases (hbefore _ h).symm.trans hp) (by decide)
      exact absurd hbars (Nat.lt_asymm hlt)

/-- **An order of the patterns finds the same as the usual one** if and only if it has `||` before
`|`. -/
theorem firstIn_eq_first?_iff {order : List Pattern} (h : order.Perm all) :
    (∀ cs, firstIn order cs = first? cs) ↔ order.idxOf .doubleBar < order.idxOf .bar := by
  refine ⟨fun hsame => ?_, firstIn_of_bars fun p => h.mem_iff.mpr (mem_all p)⟩
  have hfirst : firstIn order ['|', '|'] = some (doubleBar, ['|', '|'], []) := hsame _
  obtain ⟨before, after, horder, hsplit, hbefore⟩ := firstIn_eq_some_iff.mp hfirst
  have hbar : bar.split? ['|', '|'] = some (['|'], ['|']) := rfl
  exact idxOf_lt_idxOf horder (fun h => by cases (hbefore _ h).symm.trans hsplit)
    (fun h => by cases (hbefore _ h).symm.trans hbar) (by decide)

end Pattern

/-! ## Taking the longest lexemes -/

open Pattern (IsLongest)

/-- **One call of a tokenizer that takes longest lexemes**, at an offset and with the text left
there: its answer and the offset of that, and then the place where it is left. -/
inductive Munch : Nat × List Char → Lexer.Answer → Nat × List Char → Prop
  | skip {offset : Nat} {p : Pattern} {cs lexeme rest : List Char} {answer : Lexer.Answer}
      {place : Nat × List Char} (h : IsLongest p lexeme rest cs) (ht : p.token? lexeme = none)
      (hnext : Munch (offset + byteLength lexeme, rest) answer place) :
      Munch (offset, cs) answer place
  | token {offset : Nat} {p : Pattern} {cs lexeme rest : List Char} {t : Token}
      (h : IsLongest p lexeme rest cs) (ht : p.token? lexeme = some t) :
      Munch (offset, cs) (.ok t, offset) (offset + byteLength lexeme, rest)
  | endOfInput {offset : Nat} : Munch (offset, []) (.ok .endOfInput, offset) (offset, [])
  | fault {offset : Nat} {c : Char} {cs : List Char}
      (h : ∀ (p : Pattern), ∀ w ∈ p.language, ¬ w <+: c :: cs) :
      Munch (offset, c :: cs) (.error ⟨offset, c⟩, offset) (offset, c :: cs)

/-- The answers of such a tokenizer to any number of calls. -/
inductive Munches : Nat × List Char → List Lexer.Answer → Prop
  | nil {place : Nat × List Char} : Munches place []
  | cons {place after : Nat × List Char} {answer : Lexer.Answer} {answers : List Lexer.Answer}
      (h : Munch place answer after) (hs : Munches after answers) :
      Munches place (answer :: answers)

variable {place after : Nat × List Char} {answer : Lexer.Answer}

/-- A call has an answer, wherever it is made. -/
theorem exists_munch (offset : Nat) (cs : List Char) :
    ∃ answer after, Munch (offset, cs) answer after := by
  fun_induction scanFrom offset cs with
  | case1 offset => exact ⟨_, _, .endOfInput⟩
  | case2 offset c cs hf => exact ⟨_, _, .fault (Pattern.first?_eq_none_iff.mp hf)⟩
  | case3 offset c cs p lexeme rest hf ht ih =>
    obtain ⟨answer, after, h⟩ := ih
    exact ⟨answer, after, .skip (Pattern.first?_eq_some_iff.mp hf) ht h⟩
  | case4 offset c cs p lexeme rest hf t ht =>
    exact ⟨_, _, .token (Pattern.first?_eq_some_iff.mp hf) ht⟩

/-- A call has the first answer of the scan from its place, which goes on at the next place. -/
theorem answers_of_munch (h : Munch place answer after) (n : Nat) :
    (scanFrom place.1 place.2).answers (n + 1) =
      answer :: (scanFrom after.1 after.2).answers n := by
  induction h with
  | skip h ht _ ih => rw [scanFrom_skip (Pattern.first?_eq_some_iff.mpr h) ht, ih]
  | token h ht => rw [scanFrom_token (Pattern.first?_eq_some_iff.mpr h) ht, Scan.answers]
  | endOfInput =>
    rw [scanFrom_nil]
    rfl
  | fault h =>
    rw [scanFrom_fault (Pattern.first?_eq_none_iff.mpr h)]
    rfl

/-- Longest lexemes give the answers of the scan, and no others. -/
theorem munches_iff {answers : List Lexer.Answer} :
    Munches place answers ↔ answers = (scanFrom place.1 place.2).answers answers.length := by
  constructor
  · intro h
    induction h with
    | nil => cases h : scanFrom _ _ <;> rfl
    | cons h _ ih => rw [List.length_cons, answers_of_munch h, ← ih]
  · intro h
    induction answers generalizing place with
    | nil => exact .nil
    | cons answer answers ih =>
      obtain ⟨answer', after, hm⟩ := exists_munch place.1 place.2
      rw [List.length_cons, answers_of_munch hm] at h
      obtain ⟨rfl, hrest⟩ := List.cons_eq_cons.mp h
      exact .cons hm (ih hrest)

/-- **The first match is the longest match.** In front of any text at most one pattern has a text of
its language, but for `||` and `|`; the first pattern that matches is the one with the longest text
of them all; and the order in which patterns are tried matters only in that `||` comes before `|`.
So a lexer gives the answers of a tokenizer that takes the longest lexemes, to any number of
calls. -/
theorem first_match_is_longest_match :
    (∀ (cs : List Char) (p q : Pattern), ∀ w ∈ p.language, ∀ v ∈ q.language, w <+: cs → v <+: cs →
      p = q ∨ (p = .bar ∧ q = .doubleBar) ∨ (p = .doubleBar ∧ q = .bar)) ∧
    (∀ (cs : List Char) (p : Pattern) (lexeme rest : List Char),
      Pattern.first? cs = some (p, lexeme, rest) ↔ IsLongest p lexeme rest cs) ∧
    (∀ order : List Pattern, order.Perm Pattern.all →
      ((∀ cs, Pattern.firstIn order cs = Pattern.first? cs) ↔
        order.idxOf .doubleBar < order.idxOf .bar)) ∧
    ∀ (input : String) (answers : List Lexer.Answer),
      Munches (0, input.toList) answers ↔
        answers = (Lexer.ofInput input).answers answers.length := by
  refine ⟨fun cs p q w hw v hv hwcs hvcs => Pattern.eq_or_bar_of_mem hw hwcs hv hvcs,
    fun _ _ _ _ => Pattern.first?_eq_some_iff, fun _ => Pattern.firstIn_eq_first?_iff,
    fun input answers => ?_⟩
  rw [Lexer.answers_eq]
  exact munches_iff

/-- Both bars match in front of `||a`, the longer one is taken, and backwards the patterns would find
the shorter one. -/
theorem first_match_is_longest_match_bars :
    (['|'] ∈ Pattern.bar.language ∧ ['|', '|'] ∈ Pattern.doubleBar.language ∧
      ['|'] <+: "||a".toList ∧ ['|', '|'] <+: "||a".toList ∧
      (Pattern.bar = .doubleBar ∨ (Pattern.bar = .bar ∧ Pattern.doubleBar = .doubleBar) ∨
        (Pattern.bar = .doubleBar ∧ Pattern.doubleBar = .bar))) ∧
    IsLongest .doubleBar ['|', '|'] ['a'] "||a".toList ∧
    (Pattern.all.reverse.Perm Pattern.all ∧
      ¬ ∀ cs, Pattern.firstIn Pattern.all.reverse cs = Pattern.first? cs) ∧
    Munches (0, "||a $".toList) [(.ok .doubleBar, 0), (.ok (.identifier "a"), 2),
      (.error ⟨4, '$'⟩, 4), (.error ⟨4, '$'⟩, 4)] := by
  obtain ⟨honce, hlongest, horder, hlexer⟩ := first_match_is_longest_match
  have hbar : ['|'] <+: "||a".toList := ⟨['|', 'a'], rfl⟩
  have hbars : ['|', '|'] <+: "||a".toList := ⟨['a'], rfl⟩
  refine ⟨⟨rfl, rfl, hbar, hbars, honce _ .bar .doubleBar _ rfl _ rfl hbar hbars⟩,
    (hlongest _ _ _ _).mp (by decide), ⟨List.reverse_perm _, fun hsame => ?_⟩,
    (hlexer _ _).mpr (by decide +kernel)⟩
  exact absurd ((horder _ (List.reverse_perm _)).mp hsame) (by decide)

end ValueGrammar
