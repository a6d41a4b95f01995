import Mathlib.Tactic.Abel
import ValueGrammar.Proofs.Language
import ValueGrammar.Proofs.Parts

/-!
# The meaning of printed trees

A decoded tree may have any combinator as an operand of any other, and operands are written without
brackets. So its text is not always read back as the same tree. It is always read back as some tree:
where operands meet at a separator that is tighter than they are, the last operand of the one and
the first of the other are joined instead.

The tree that is read back describes the same values if the expression is layered: every operand is
tighter than the combinator that joins it, or has the same combinator, which is not `&&`. Operands
of the same combinator are spliced into the others then, and this changes no language.

Headlines:
* **`language_flatten`**: operands of the same combinator can be joined with the others.
* **`exists_derives_between`**: two spellings with a separator between them spell something.
* **`exists_reprinted`**: what is written is read back, and means the same if it is layered.
* **`exists_parse_source_of_ofJson`**: the same for what is decoded and its rendered values.
* **`meaning_lost_without_brackets`**: two trees that are not layered and lose their meaning.
-/

namespace ValueGrammar

/-! ## Languages of nested operands -/

namespace Combinator

variable {c : Combinator} {l : Language String} {ls ms : List (Language String)}

theorem language_nil_anyOf : anyOf.language [] = 0 := by
  ext w
  rw [language]
  constructor
  · rintro ⟨ms, hms, hne, -⟩
    exact absurd (List.sublist_nil.mp hms) hne
  · exact fun h => absurd h (Language.notMem_zero w)

/-- A single operand stands for itself. -/
theorem language_singleton (c : Combinator) (l : Language String) : c.language [l] = l := by
  cases c with
  | juxtaposition => exact List.prod_singleton
  | allOf =>
    ext w
    constructor
    · rintro ⟨ms, hms, hw⟩
      rw [List.perm_singleton.mp hms, List.prod_singleton] at hw
      exact hw
    · exact fun hw => ⟨[l], .refl _, by rwa [List.prod_singleton]⟩
  | anyOf =>
    ext w
    constructor
    · rintro ⟨ms, hms, hne, hw⟩
      rw [(List.sublist_singleton.mp hms).resolve_left hne, List.prod_singleton] at hw
      exact hw
    · exact fun hw => ⟨[l], .refl _, by simp, by rwa [List.prod_singleton]⟩
  | oneOf =>
    ext w
    constructor
    · rintro ⟨m, hm, hw⟩
      rwa [List.mem_singleton.mp hm] at hw
    · exact fun hw => ⟨l, List.mem_singleton_self l, hw⟩

/-- Of some operands, the first one is chosen, or some of the others, or both. -/
theorem language_anyOf_cons (l : Language String) (ls : List (Language String)) :
    anyOf.language (l :: ls) = l + anyOf.language ls + l * anyOf.language ls := by
  ext w
  rw [Language.mem_add, Language.mem_add, Language.mem_mul]
  constructor
  · rintro ⟨ms, hms, hne, hw⟩
    cases hms with
    | cons _ hms => exact .inl (.inr ⟨ms, hms, hne, hw⟩)
    | @cons_cons ms _ _ hms =>
      rw [List.prod_cons] at hw
      by_cases hnil : ms = []
      · subst hnil
        rw [List.prod_nil, mul_one] at hw
        exact .inl (.inl hw)
      · obtain ⟨a, ha, b, hb, rfl⟩ := Language.mem_mul.mp hw
        exact .inr ⟨a, ha, b, ⟨ms, hms, hnil, hb⟩, rfl⟩
  · rintro ((hw | ⟨ms, hms, hne, hw⟩) | ⟨a, ha, b, ⟨ms, hms, -, hb⟩, rfl⟩)
    · exact ⟨[l], List.cons_sublist_cons.mpr (List.nil_sublist ls), by simp,
        by rwa [List.prod_singleton]⟩
    · exact ⟨ms, hms.cons l, hne, hw⟩
    · refine ⟨l :: ms, List.cons_sublist_cons.mpr hms, by simp, ?_⟩
      rw [List.prod_cons]
      exact Language.mem_mul.mpr ⟨a, ha, b, hb, rfl⟩

theorem language_anyOf_append (ls ms : List (Language String)) :
    anyOf.language (ls ++ ms) =
      anyOf.language ls + anyOf.language ms + anyOf.language ls * anyOf.language ms := by
  induction ls with
  | nil => rw [List.nil_append, language_nil_anyOf, zero_mul, zero_add, add_zero]
  | cons l ls ih =>
    rw [List.cons_append, language_anyOf_cons, ih, language_anyOf_cons]
    simp only [mul_add, add_mul, mul_assoc]
    abel

/-- **Operands of the same combinator can be joined with the others**, but for `&&`: a whole that
may be moved among others is not the same as its parts, unless it has only one. -/
theorem language_flatten {lss : List (List (Language String))}
    (h : c = .allOf → ∀ ls ∈ lss, ∃ l, ls = [l]) :
    c.language lss.flatten = c.language (lss.map c.language) := by
  cases c with
  | juxtaposition => exact List.prod_flatten
  | allOf =>
    congr 1
    induction lss with
    | nil => rfl
    | cons ls lss ih =>
      obtain ⟨⟨l, rfl⟩, hlss⟩ := List.forall_mem_cons.mp (h rfl)
      rw [List.flatten_cons, ih fun _ => hlss, List.map_cons, language_singleton,
        List.singleton_append]
  | anyOf =>
    clear h
    induction lss with
    | nil => rfl
    | cons ls lss ih =>
      rw [List.flatten_cons, language_anyOf_append, ih, List.map_cons, language_anyOf_cons]
  | oneOf =>
    ext w
    constructor
    · rintro ⟨l, hl, hw⟩
      obtain ⟨ls, hls, hl⟩ := List.mem_flatten.mp hl
      exact ⟨_, List.mem_map_of_mem hls, l, hl, hw⟩
    · rintro ⟨_, hls, hw⟩
      obtain ⟨ls, hmem, rfl⟩ := List.mem_map.mp hls
      obtain ⟨l, hl, hw⟩ := hw
      exact ⟨l, List.mem_flatten.mpr ⟨ls, hmem, hl⟩, hw⟩

end Combinator

/-! ## Joined operands -/

section Joined

variable {α : Type} {sep x y z : List α} {xs ys : List (List α)}

theorem intercalate_append (hxs : xs ≠ []) (hys : ys ≠ []) :
    sep.intercalate (xs ++ ys) = sep.intercalate xs ++ (sep ++ sep.intercalate ys) := by
  induction xs with
  | nil => exact absurd rfl hxs
  | cons x xs ih =>
    cases xs with
    | nil =>
      obtain ⟨y, ys, rfl⟩ := List.exists_cons_of_ne_nil hys
      rw [List.singleton_append, List.intercalate_cons_cons, List.intercalate_singleton,
        List.append_assoc]
    | cons x' xs =>
      rw [List.cons_append, List.cons_append, List.intercalate_cons_cons, ← List.cons_append,
        ih (by simp), List.intercalate_cons_cons]
      simp only [List.append_assoc]

/-- Lists that are joined with one separator throughout may be joined in groups. -/
theorem intercalate_flatten {xss : List (List (List α))} (h : ∀ xs ∈ xss, xs ≠ []) :
    sep.intercalate xss.flatten = sep.intercalate (xss.map sep.intercalate) := by
  induction xss with
  | nil => rfl
  | cons xs xss ih =>
    obtain ⟨hxs, hxss⟩ := List.forall_mem_cons.mp h
    cases xss with
    | nil => simp
    | cons ys xss =>
      have hys := (List.forall_mem_cons.mp hxss).1
      rw [List.flatten_cons, intercalate_append hxs (by simp [hys]), ih hxss, List.map_cons,
        List.map_cons, List.map_cons, List.intercalate_cons_cons, List.append_assoc]

/-- What stands between two joined lists joins the last of the one to the first of the other. -/
theorem intercalate_between (xs ys : List (List α)) :
    sep.intercalate (xs ++ [x]) ++ (z ++ sep.intercalate (y :: ys)) =
      sep.intercalate (xs ++ (x ++ (z ++ y)) :: ys) := by
  have hbetween : x ++ (z ++ sep.intercalate (y :: ys)) =
      sep.intercalate ((x ++ (z ++ y)) :: ys) := by
    cases ys with
    | nil => simp
    | cons y' ys =>
      rw [List.intercalate_cons_cons, List.intercalate_cons_cons]
      simp only [List.append_assoc]
  by_cases hxs : xs = []
  · subst hxs
    simpa using hbetween
  · rw [intercalate_append hxs (by simp), intercalate_append hxs (by simp), ← hbetween,
      List.intercalate_singleton]
    simp only [List.append_assoc]

end Joined

/-- Operands with their tokens. -/
abbrev Spelled := List (List Token × Expr)

variable {c d : Combinator} {ts us : List Token} {e : Expr}

/-- The tokens of operands between the separators of a combinator. -/
def Combinator.tokens (c : Combinator) (os : Spelled) : List Token :=
  c.separatorTokens.intercalate (os.map Prod.fst)

/-- The languages of operands. -/
def Spelled.languages (os : Spelled) (repetitions : Nat) : List (Language String) :=
  os.map fun o => o.2.language repetitions

/-- One or more operands of a combinator, each spelled by its tokens. -/
structure Combinator.Joins (c : Combinator) (os : Spelled) : Prop where
  ne_nil : os ≠ []
  derives : ∀ o ∈ os, Derives c.operandCategory o.1 o.2

/-- What is derived at the level of a combinator has one or more operands. -/
theorem exists_joins (h : Derives (.level c) ts e) :
    ∃ os, c.Joins os ∧ ts = c.tokens os ∧
      ∀ repetitions, e.language repetitions = c.language (os.languages repetitions) := by
  cases h with
  | single h =>
    refine ⟨[(ts, e)], ⟨by simp, List.forall_mem_singleton.mpr h⟩, ?_, fun k => ?_⟩
    · exact List.intercalate_singleton.symm
    · exact (c.language_singleton _).symm
  | several h2 h =>
    rename_i os
    refine ⟨os, ⟨?_, h⟩, rfl, fun k => ?_⟩
    · rintro rfl
      exact absurd h2 (by decide)
    · rw [Expr.language, Expr.languages_eq_map, List.map_map]
      rfl

/-- One or more operands are derived at the level of their combinator. -/
theorem exists_derives {os : Spelled} (h : c.Joins os) :
    ∃ e, Derives (.level c) (c.tokens os) e ∧
      ∀ repetitions, e.language repetitions = c.language (os.languages repetitions) := by
  match os, h with
  | [], h => exact absurd rfl h.ne_nil
  | [o], h =>
    refine ⟨o.2, ?_, fun k => (c.language_singleton _).symm⟩
    rw [Combinator.tokens, List.map_singleton, List.intercalate_singleton]
    exact .single (h.derives o (List.mem_singleton_self o))
  | o :: o' :: os, h =>
    refine ⟨_, .several (by simp) h.derives, fun k => ?_⟩
    rw [Expr.language, Expr.languages_eq_map, List.map_map]
    rfl

/-! ## Everything that is printed is read -/

theorem Combinator.looseness_injective : Function.Injective Combinator.looseness := by
  intro c d
  cases c <;> cases d <;> simp [Combinator.looseness]

/-- Between two combinators of different looseness there is the level of the looser one's
operands. -/
theorem exists_operandCategory_eq (h : d.looseness < c.looseness) :
    ∃ b : Combinator, c.operandCategory = .level b ∧ d.looseness ≤ b.looseness ∧
      b.looseness < c.looseness := by
  cases c with
  | juxtaposition => cases d <;> exact absurd h (by decide)
  | allOf => exact ⟨.juxtaposition, rfl, Nat.le_of_lt_succ h, by decide⟩
  | oneOf => exact ⟨.allOf, rfl, Nat.le_of_lt_succ h, by decide⟩
  | anyOf => exact ⟨.oneOf, rfl, Nat.le_of_lt_succ h, by decide⟩

/-- Two spellings of a level with a separator of it, or of a tighter one, between them spell
something of that level: if it is tighter, the last operand of the one and the first of the other
are joined first. -/
theorem exists_derives_between (hl : d.looseness ≤ c.looseness)
    (hts : ∃ e, Derives (.level c) ts e) (hus : ∃ e, Derives (.level c) us e) :
    ∃ e, Derives (.level c) (ts ++ (d.separatorTokens ++ us)) e := by
  induction hn : c.looseness using Nat.strongRecOn generalizing c ts us with
  | ind n ih =>
    subst hn
    obtain ⟨_, hts⟩ := hts
    obtain ⟨_, hus⟩ := hus
    obtain ⟨xs, hxs, rfl, -⟩ := exists_joins hts
    obtain ⟨ys, hys, rfl, -⟩ := exists_joins hus
    by_cases hdc : d = c
    · subst hdc
      have hjoins : d.Joins (xs ++ ys) :=
        ⟨by simp [hxs.ne_nil], List.forall_mem_append.mpr ⟨hxs.derives, hys.derives⟩⟩
      obtain ⟨e, he, -⟩ := exists_derives hjoins
      rw [Combinator.tokens, List.map_append, intercalate_append (by simp [hxs.ne_nil])
        (by simp [hys.ne_nil])] at he
      exact ⟨e, he⟩
    · have hlt : d.looseness < c.looseness :=
        Nat.lt_of_le_of_ne hl fun h => hdc (Combinator.looseness_injective h)
      obtain ⟨b, hb, hdb, hbc⟩ := exists_operandCategory_eq hlt
      obtain ⟨xs, x, rfl⟩ := (List.eq_nil_or_concat' xs).resolve_left hxs.ne_nil
      obtain ⟨y, ys, rfl⟩ := List.exists_cons_of_ne_nil hys.ne_nil
      obtain ⟨hxs, hx⟩ := List.forall_mem_append.mp hxs.derives
      obtain ⟨hy, hys⟩ := List.forall_mem_cons.mp hys.derives
      rw [List.forall_mem_singleton, hb] at hx
      rw [hb] at hy
      obtain ⟨e, he⟩ := ih b.looseness hbc hdb ⟨_, hx⟩ ⟨_, hy⟩ rfl
      have hjoins : c.Joins (xs ++ (x.1 ++ (d.separatorTokens ++ y.1), e) :: ys) := by
        refine ⟨by simp, List.forall_mem_append.mpr ⟨hxs, List.forall_mem_cons.mpr ⟨?_, hys⟩⟩⟩
        rw [hb]
        exact he
      obtain ⟨f, hf, -⟩ := exists_derives hjoins
      rw [Combinator.tokens, List.map_append, List.map_cons, ← intercalate_between] at hf
      rw [Combinator.tokens, Combinator.tokens, List.map_append, List.map_singleton, List.map_cons]
      exact ⟨f, hf⟩

/-- Spellings between separators spell something, whatever they are. -/
theorem exists_spells_intercalate (c : Combinator) {xs : Spelled} (hne : xs ≠ [])
    (h : ∀ x ∈ xs, Spells x.1 x.2) : ∃ e, Spells (c.tokens xs) e := by
  induction xs with
  | nil => exact absurd rfl hne
  | cons x xs ih =>
    obtain ⟨hx, hxs⟩ := List.forall_mem_cons.mp h
    cases xs with
    | nil =>
      rw [Combinator.tokens, List.map_singleton, List.intercalate_singleton]
      exact ⟨_, hx⟩
    | cons y xs =>
      rw [Combinator.tokens, List.map_cons, List.map_cons, List.intercalate_cons_cons,
        List.append_assoc]
      exact exists_derives_between (Category.looseness_le_anyOf (.level c)) ⟨_, hx⟩
        (ih (by simp) hxs)

/-! ## Layered trees keep their meaning -/

namespace Expr

/-- Whether an expression's own leaf is lexable. -/
def HasLexableLeaf : Expr → Prop
  | .leaf l => l.Lexable
  | .group _ | .multiplied .. | .combined .. => True

/-- Whether an expression's own operands hang together more tightly than it does, or as tightly, in
which case the combinator is the same; but this will not do for `&&`. -/
def IsLayered : Expr → Prop
  | .combined c operands => ∀ e ∈ operands,
      e.looseness < c.looseness ∨ e.looseness = c.looseness ∧ c ≠ .allOf
  | .leaf _ | .group _ | .multiplied .. => True

instance : ∀ e : Expr, Decidable e.IsLayered
  | .combined _ operands => inferInstanceAs (Decidable (∀ e ∈ operands, _ ∨ _))
  | .leaf _ | .group _ | .multiplied .. => inferInstanceAs (Decidable True)

/-- Whether all operands in an expression can do without brackets. -/
abbrev Layered : Expr → Prop := Everywhere IsLayered

end Expr

open ValueGrammar.Expr

/-- **What is read back of an expression's text**: tokens that spell some expression, with the same
meaning if the expression is layered. -/
structure Reprinted (e : Expr) (ts : List Token) (d : Expr) : Prop where
  written : Written e.source.toList ts
  spells : Spells ts d
  term : e.isTerm = true → Derives .term ts d
  layered : e.Layered → Derives e.category ts d ∧
    ∀ repetitions, d.language repetitions = e.language repetitions

/-- Groups of operands that are joined by their combinator are joined as one. -/
theorem tokens_flatten {oss : List Spelled} (h : ∀ os ∈ oss, os ≠ []) :
    c.tokens oss.flatten = c.separatorTokens.intercalate (oss.map c.tokens) := by
  have hmap : ∀ xs ∈ oss.map (List.map Prod.fst), xs ≠ [] :=
    List.forall_mem_map.mpr fun os hos => by simp [h os hos]
  rw [Combinator.tokens, List.map_flatten, intercalate_flatten hmap, List.map_map]
  rfl

/-- The operands that an operand contributes to a combinator when it is written without brackets:
itself if it is tighter, else its own ones. -/
theorem exists_joins_of_reprinted {f : Expr} (h : Reprinted e ts f) (hlayered : e.Layered)
    (hl : e.looseness < c.looseness ∨ e.looseness = c.looseness ∧ c ≠ .allOf) :
    ∃ os, c.Joins os ∧ ts = c.tokens os ∧
      (∀ repetitions, e.language repetitions = c.language (os.languages repetitions)) ∧
      (c = .allOf → ∃ o, os = [o]) := by
  obtain ⟨hd, hlanguage⟩ := h.layered hlayered
  rw [← looseness_category] at hl
  rcases hl with hl | ⟨hl, hc⟩
  · refine ⟨[(ts, f)], ⟨by simp, ?_⟩, ?_, fun k => ?_, fun _ => ⟨_, rfl⟩⟩
    · exact List.forall_mem_singleton.mpr (derives_operandCategory hd hl)
    · exact List.intercalate_singleton.symm
    · rw [← hlanguage]
      exact (c.language_singleton _).symm
  · obtain ⟨os, hos, hts, hos'⟩ := exists_joins (derives_of_looseness_le hd (Nat.le_of_eq hl))
    exact ⟨os, hos, hts, fun k => (hlanguage k).symm.trans (hos' k), fun h => absurd h hc⟩

theorem source_combined (c : Combinator) (operands : List Expr) :
    (Expr.combined c operands).source.toList =
      c.separator.toList.intercalate (operands.map fun e => e.source.toList) := by
  rw [source, String.toList_intercalate, sources_eq_map, List.map_map]
  rfl

theorem ne_nil_of_forall₂ {α β : Type} {R : α → β → Prop} {as : List α} {bs : List β}
    (h : List.Forall₂ R as bs) (hne : as ≠ []) : bs ≠ [] := by
  cases h with
  | nil => exact absurd rfl hne
  | cons => simp

section Operands

variable {operands : List Expr}

/-- Operands that can do without brackets contribute their own operands, and these are joined as one
list. -/
theorem exists_reprinted_of_layered (hne : operands ≠ [])
    (hlayered : (Expr.combined c operands).Layered)
    (h : ∀ e ∈ operands, ∃ ts d, Reprinted e ts d) :
    ∃ ts d, Reprinted (.combined c operands) ts d := by
  obtain ⟨hhere, hparts⟩ := everywhere_combined.mp hlayered
  obtain ⟨oss, hall, hwritten⟩ := exists_written_operands c.tokens
    (fun e os => (c.Joins os ∧ (c = .allOf → ∃ o, os = [o])) ∧
      ∀ k, e.language k = c.language (os.languages k)) hne fun e he => by
      obtain ⟨ts, d, h⟩ := h e he
      obtain ⟨os, hos, rfl, hlanguage, hone⟩ :=
        exists_joins_of_reprinted h (hparts e he) (hhere e he)
      exact ⟨os, h.written, ⟨hos, hone⟩, hlanguage⟩
  obtain ⟨hoss, hlanguages⟩ := (List.forall₂_and_left _ _).mp hall.flip
  have hjoins : c.Joins oss.flatten := by
    refine ⟨?_, fun o ho => ?_⟩
    · obtain ⟨os, oss, rfl⟩ := List.exists_cons_of_ne_nil (ne_nil_of_forall₂ hall hne)
      simp [(hoss os List.mem_cons_self).1.ne_nil]
    · obtain ⟨os, hos, ho⟩ := List.mem_flatten.mp ho
      exact (hoss os hos).1.derives o ho
  obtain ⟨d, hd, hlanguage⟩ := exists_derives hjoins
  rw [tokens_flatten fun os hos => (hoss os hos).1.ne_nil] at hd
  refine ⟨_, d, ?_, spells_of_derives hd, fun h => (by cases h), fun _ => ⟨hd, fun k => ?_⟩⟩
  · rw [source_combined]
    exact hwritten
  · have hmap : operands.map (Expr.language k) = oss.map fun os => c.language (os.languages k) := by
      rw [← List.forall₂_eq_eq_eq, List.forall₂_map_left_iff, List.forall₂_map_right_iff]
      exact hlanguages.flip.imp fun e os h => h k
    have hflatten : Spelled.languages oss.flatten k =
        (oss.map fun os => os.languages k).flatten := List.map_flatten
    rw [hlanguage, language, languages_eq_map, hmap, hflatten, Combinator.language_flatten ?_,
      List.map_map]
    · rfl
    · intro hc
      refine List.forall_mem_map.mpr fun os hos => ?_
      obtain ⟨o, rfl⟩ := (hoss os hos).2 hc
      exact ⟨_, rfl⟩

/-- Whatever the operands are, they are read back as something. -/
theorem exists_reprinted_of_not_layered (hne : operands ≠ [])
    (hlayered : ¬ (Expr.combined c operands).Layered)
    (h : ∀ e ∈ operands, ∃ ts d, Reprinted e ts d) :
    ∃ ts d, Reprinted (.combined c operands) ts d := by
  obtain ⟨xs, hall, hwritten⟩ := exists_written_operands Prod.fst
    (fun e x => Spells x.1 x.2 ∧ Reprinted e x.1 x.2) hne fun e he => by
      obtain ⟨ts, d, h⟩ := h e he
      exact ⟨(ts, d), h.written, h.spells, h⟩
  obtain ⟨hspells, -⟩ := (List.forall₂_and_left _ _).mp hall.flip
  obtain ⟨d, hd⟩ := exists_spells_intercalate c (ne_nil_of_forall₂ hall hne) hspells
  refine ⟨_, d, ?_, hd, fun h => (by cases h), fun h => absurd h hlayered⟩
  rw [source_combined]
  exact hwritten

end Operands

/-- **Every well-formed expression with lexable leaves is read back as something.** -/
theorem exists_reprinted : ∀ e : Expr, e.WellFormed → Everywhere HasLexableLeaf e →
    ∃ ts d, Reprinted e ts d := by
  intro e
  induction e using Expr.inductionOn with
  | leaf l =>
    intro _ hl
    obtain ⟨t, ht, hd⟩ := exists_written_leaf (everywhere_leaf.mp hl)
    exact ⟨[t], .leaf l, ht, spells_of_derives hd, fun _ => hd, fun _ => ⟨hd, fun _ => rfl⟩⟩
  | group body ih =>
    intro hw hl
    obtain ⟨ts, d, h⟩ := ih (everywhere_group.mp hw).2 (everywhere_group.mp hl).2
    obtain ⟨hwritten, hd⟩ := written_bracketed h.written h.spells
    refine ⟨_, .group d, hwritten, spells_of_derives hd, fun _ => hd,
      fun hlayered => ⟨hd, fun k => ?_⟩⟩
    rw [language, language, (h.layered (everywhere_group.mp hlayered).2).2]
  | multiplied body m ih =>
    intro hw hl
    obtain ⟨hm, hw⟩ := everywhere_multiplied.mp hw
    obtain ⟨ts, d, h⟩ := ih hw (everywhere_multiplied.mp hl).2
    obtain ⟨us, hus, hd⟩ := exists_written_body h.written h.spells h.term
    obtain ⟨ws, hws, hwritten, hstop⟩ := exists_suffix_written hm
    refine ⟨us ++ ws, .multiplied (if body.isTerm then d else .group d) m, ?_,
      spells_of_derives (.multiplied hd hws), fun h => (by cases h),
      fun hlayered => ⟨.multiplied hd hws, fun k => ?_⟩⟩
    · rw [source, String.toList_append]
      exact written_append hus hstop hwritten
    · have hbody := (h.layered (everywhere_multiplied.mp hlayered).2).2 k
      rw [language, language]
      split
      · rw [hbody]
      · rw [language, hbody]
  | combined c operands ih =>
    intro hw hl
    obtain ⟨h2, hw⟩ := everywhere_combined.mp hw
    have hl := (everywhere_combined.mp hl).2
    have hne : operands ≠ [] := by
      rintro rfl
      exact absurd h2 (by simp [IsWellMade])
    have hoperands : ∀ e ∈ operands, ∃ ts d, Reprinted e ts d :=
      fun e he => ih e he (hw e he) (hl e he)
    by_cases hlayered : (Expr.combined c operands).Layered
    · exact exists_reprinted_of_layered hne hlayered hoperands
    · exact exists_reprinted_of_not_layered hne hlayered hoperands

/-! ## Rendered values -/

/-- Samples with the same fragments are rendered alike. -/
theorem mem_map_render_of_words_le {ss ss' : List Sample} (h : Sample.words ss ≤ Sample.words ss')
    {text : String} (ht : text ∈ ss.map Sample.render) : text ∈ ss'.map Sample.render := by
  obtain ⟨s, hs, rfl⟩ := List.mem_map.mp ht
  obtain ⟨s', hs', hfragments⟩ := h ⟨s, hs, rfl⟩
  refine List.mem_map.mpr ⟨s', hs', ?_⟩
  rw [Sample.render, Sample.render, hfragments]

/-- **What is decoded can be written and read back**, if its leaves are lexable. If it is layered,
it is read back as an expression that describes the same values, without a limit on draws. -/
theorem exists_parse_source_of_ofJson {v : Json} {e : Expr} (hv : Expr.ofJson v = .ok e)
    (hl : Everywhere HasLexableLeaf e) :
    ∃ d, Expr.parse e.source = .ok d ∧
      (e.Layered → ∀ limits : Limits, limits.draws = none → ∀ text,
        text ∈ (d.compile limits).cursor.toList.map Sample.render ↔
          text ∈ (e.compile limits).cursor.toList.map Sample.render) := by
  obtain ⟨ts, d, h⟩ := exists_reprinted e (wellFormed_of_ofJson hv) hl
  refine ⟨d, parse_ok_iff.mpr ⟨ts, lexed_of_written h.written 0, h.spells⟩, ?_⟩
  intro hlayered limits hdraws text
  have hwords : Sample.words (d.compile limits).cursor.toList =
      Sample.words (e.compile limits).cursor.toList := by
    rw [toList_cursor_compile, toList_cursor_compile, (words_expr limits d).2 hdraws,
      (words_expr limits e).2 hdraws, (h.layered hlayered).2]
  exact ⟨mem_map_render_of_words_le hwords.le, mem_map_render_of_words_le hwords.ge⟩

/-- A choice in a choice is written without brackets, and a multiplied sequence with them. -/
theorem exists_parse_source_of_ofJson_choice :
    ∃ (v : Json) (e d : Expr), Expr.ofJson v = .ok e ∧ Everywhere HasLexableLeaf e ∧ e.Layered ∧
      e.source = "a | <b> | [a <b>]*" ∧ Expr.parse e.source = .ok d ∧ d ≠ e ∧
      ∀ text, text ∈ (d.compile {}).cursor.toList.map Sample.render ↔
        text ∈ (e.compile {}).cursor.toList.map Sample.render := by
  let a : Expr := .leaf (.identifier "a")
  let b : Expr := .leaf (.typeRef "b")
  let sequence : Expr := .multiplied (.combined .juxtaposition [a, b]) .zeroOrMore
  let e : Expr := .combined .oneOf [a, .combined .oneOf [b, sequence]]
  have hv : Expr.ofJson e.toJson = .ok e := by decide +kernel
  have ha : Everywhere HasLexableLeaf a := everywhere_leaf.mpr (.inl ⟨by decide, by simp⟩)
  have hb : Everywhere HasLexableLeaf b :=
    everywhere_leaf.mpr ⟨by decide, List.forall_mem_singleton.mpr rfl⟩
  have hl : Everywhere HasLexableLeaf e := by
    refine everywhere_pair.mpr ⟨trivial, ha, everywhere_pair.mpr ⟨trivial, hb, ?_⟩⟩
    exact everywhere_multiplied.mpr ⟨trivial, everywhere_pair.mpr ⟨trivial, ha, hb⟩⟩
  have hlayered : e.Layered := by
    have hleaf (l : Leaf) : Layered (.leaf l) := everywhere_leaf.mpr trivial
    have hsequence : sequence.Layered :=
      everywhere_multiplied.mpr ⟨trivial, everywhere_pair.mpr ⟨by decide, hleaf _, hleaf _⟩⟩
    exact everywhere_pair.mpr ⟨by decide, hleaf _,
      everywhere_pair.mpr ⟨by decide, hleaf _, hsequence⟩⟩
  obtain ⟨d, hd, hmeaning⟩ := exists_parse_source_of_ofJson hv hl
  refine ⟨e.toJson, e, d, hv, hl, hlayered, by decide +kernel, hd, ?_, hmeaning hlayered {} rfl⟩
  rintro rfl
  exact absurd hd (by decide +kernel)

/-- **Brackets that are missing**: a choice in a sequence is written without them, and so is one
collection in any order inside another. What is read back describes other values. -/
theorem meaning_lost_without_brackets :
    (∃ (v : Json) (e d : Expr), Expr.ofJson v = .ok e ∧ Everywhere HasLexableLeaf e ∧
      e.source = "a | b c" ∧ Expr.parse e.source = .ok d ∧
      (e.compile {}).cursor.toList.map Sample.render = ["a c", "b c"] ∧
      (d.compile {}).cursor.toList.map Sample.render = ["a", "b c"]) ∧
    ∃ (v : Json) (e d : Expr), Expr.ofJson v = .ok e ∧ Everywhere HasLexableLeaf e ∧
      e.source = "a && b && c" ∧ Expr.parse e.source = .ok d ∧
      "b a c" ∉ (e.compile {}).cursor.toList.map Sample.render ∧
      "b a c" ∈ (d.compile {}).cursor.toList.map Sample.render := by
  let a : Expr := .leaf (.identifier "a")
  let b : Expr := .leaf (.identifier "b")
  let c : Expr := .leaf (.identifier "c")
  have ha : Everywhere HasLexableLeaf a := everywhere_leaf.mpr (.inl ⟨by decide, by simp⟩)
  have hb : Everywhere HasLexableLeaf b := everywhere_leaf.mpr (.inl ⟨by decide, by simp⟩)
  have hc : Everywhere HasLexableLeaf c := everywhere_leaf.mpr (.inl ⟨by decide, by simp⟩)
  let choice : Expr := .combined .juxtaposition [.combined .oneOf [a, b], c]
  let collection : Expr := .combined .allOf [a, .combined .allOf [b, c]]
  refine ⟨⟨choice.toJson, choice, .combined .oneOf [a, .combined .juxtaposition [b, c]],
      by decide +kernel, ?_, by decide +kernel, by decide +kernel, by decide +kernel,
      by decide +kernel⟩,
    ⟨collection.toJson, collection, .combined .allOf [a, b, c], by decide +kernel, ?_,
      by decide +kernel, by decide +kernel, by decide +kernel, by decide +kernel⟩⟩
  · exact everywhere_pair.mpr ⟨trivial, everywhere_pair.mpr ⟨trivial, ha, hb⟩, hc⟩
  · exact everywhere_pair.mpr ⟨trivial, ha, everywhere_pair.mpr ⟨trivial, hb, hc⟩⟩

end ValueGrammar
