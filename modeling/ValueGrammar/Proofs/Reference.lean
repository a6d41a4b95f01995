import ValueGrammar.Proofs.Pieces
import ValueGrammar.TypeTable

/-!
# References in a text

A text refers to a name if the name stands in it in angle brackets. No two references overlap, so a
text is read from the left, a reference or another character at a time (`referenceInduction`), and
cutting it into fragments finds all references.

Side by side, texts refer to what each of them refers to, unless a reference reaches from one into
the other. None reaches over the end of a piece: a `<` is only found in a reference, in a quoted
text, whose closing quote stands in no reference, and in a comment, which ends with its line.

One pass of an expansion replaces fragments by fragments: a definition comes in brackets, and a
bracket stands in no reference, so none is made or broken where texts meet.

Headlines:
* **`mem_fragmentsOf_iff`**: the fragments of a text hold exactly its references.
* **`fragmentsOf_append`**: the fragments of texts that are kept apart make up those of the whole.
* **`keptApart_of_split?`**: a piece is kept apart from what stands behind it.
* **`fragmentsOf_replaced`**: one pass over a text replaces its fragments.
* **`refersTo_substitute_iff`**: what a text refers to after a pass.
* **`substitute_eq_self_iff`**: a pass changes a text exactly if it refers to a defined name.
-/

namespace ValueGrammar

variable {p : Pattern} {cs ds lexeme rest : List Char} {name : String}

/-! ## References -/

/-- A reference: a name in angle brackets. -/
def referenceTo (name : String) : List Char := '<' :: (name.toList ++ ['>'])

/-- Whether a text refers to a name. -/
def RefersTo (cs : List Char) (name : String) : Prop :=
  Lexeme.IsTypeName name.toList ∧ referenceTo name <:+: cs

/-- Whether a text begins with a reference. -/
def BeginsWithReference (cs : List Char) : Prop :=
  ∃ name, Lexeme.IsTypeName name.toList ∧ referenceTo name <+: cs

/-- A reference is a name in angle brackets. -/
theorem eq_of_typeRef (h : Pattern.typeRef.split? cs = some (lexeme, rest)) :
    lexeme = '<' :: ((Pattern.inside lexeme).toList ++ ['>']) := by
  obtain ⟨ds, d, rfl, -, hd, -⟩ := Lexeme.exists_of_enclosed h
  obtain rfl := of_decide_eq_true hd
  rw [toList_inside]

theorem split?_typeRef_iff : Pattern.typeRef.split? cs = some (lexeme, rest) ↔
    ∃ name, Lexeme.IsTypeName name.toList ∧ lexeme = referenceTo name ∧ cs = lexeme ++ rest := by
  constructor
  · intro h
    have hname : Lexeme.IsTypeName (Pattern.inside lexeme).toList :=
      lexable_of_split? (t := .typeRef _) h rfl
    exact ⟨_, hname, eq_of_typeRef h, (Pattern.append_of_split? h).symm⟩
  · rintro ⟨name, hname, rfl, rfl⟩
    exact Lexeme.enclosed_append hname.2 (by decide) (by decide) (.inr hname.1)

theorem split?_referenceTo (h : Lexeme.IsTypeName name.toList) (rest : List Char) :
    Pattern.typeRef.split? (referenceTo name ++ rest) = some (referenceTo name, rest) :=
  split?_typeRef_iff.mpr ⟨name, h, rfl, rfl⟩

theorem inside_referenceTo (name : String) : Pattern.inside (referenceTo name) = name := by
  rw [← String.toList_inj, referenceTo, toList_inside]

/-- A text begins with one reference at most. -/
theorem referenceTo_append_inj {other : String} (h : Lexeme.IsTypeName name.toList)
    (h' : Lexeme.IsTypeName other.toList) (heq : referenceTo name ++ cs = referenceTo other ++ ds) :
    name = other ∧ cs = ds := by
  have hsplit := (split?_referenceTo h cs).symm.trans (heq ▸ split?_referenceTo h' ds)
  obtain ⟨hname, hcs⟩ := Prod.mk.inj (Option.some.inj hsplit)
  exact ⟨by rw [← inside_referenceTo name, hname, inside_referenceTo], hcs⟩

theorem not_beginsWithReference_of_ne {c : Char} (h : c ≠ '<') :
    ¬ BeginsWithReference (c :: cs) := by
  rintro ⟨name, -, hprefix⟩
  exact h (List.cons_prefix_cons.mp hprefix).1.symm

/-! ## Fragments -/

theorem fragmentsOf_nil : fragmentsOf [] = [] := by
  rw [fragmentsOf]

theorem fragmentsOf_other {c : Char} (h : Pattern.typeRef.split? (c :: cs) = none) :
    fragmentsOf (c :: cs) = .other c :: fragmentsOf cs := by
  rw [fragmentsOf]
  split <;> simp_all

theorem fragmentsOf_reference (h : Pattern.typeRef.split? cs = some (lexeme, rest)) :
    fragmentsOf cs = .reference (Pattern.inside lexeme) :: fragmentsOf rest := by
  cases cs with
  | nil => cases h
  | cons c cs =>
    rw [fragmentsOf]
    split <;> simp_all

theorem fragmentsOf_referenceTo (h : Lexeme.IsTypeName name.toList) (rest : List Char) :
    fragmentsOf (referenceTo name ++ rest) = .reference name :: fragmentsOf rest := by
  rw [fragmentsOf_reference (split?_referenceTo h rest), inside_referenceTo]

theorem fragmentsOf_cons {c : Char} (h : ¬ BeginsWithReference (c :: cs)) :
    fragmentsOf (c :: cs) = .other c :: fragmentsOf cs := by
  refine fragmentsOf_other (Option.eq_none_iff_forall_ne_some.mpr fun r hr => h ?_)
  obtain ⟨name, hname, hlexeme, hcs⟩ := split?_typeRef_iff.mp hr
  exact ⟨name, hname, by rw [hcs, hlexeme]; exact List.prefix_append _ _⟩

/-- **Reading a text from the left**: what holds of the empty text, and passes to a text from what
stands behind its first character or reference, holds of all texts. -/
theorem referenceInduction {P : List Char → Prop} (nil : P [])
    (other : ∀ c cs, ¬ BeginsWithReference (c :: cs) → P cs → P (c :: cs))
    (reference : ∀ name cs, Lexeme.IsTypeName name.toList → P cs → P (referenceTo name ++ cs))
    (cs : List Char) : P cs := by
  fun_induction fragmentsOf cs with
  | case1 => exact nil
  | case2 c cs hs ih =>
    refine other c cs ?_ ih
    rintro ⟨name, hname, rest, hcs⟩
    rw [← hcs, split?_referenceTo hname] at hs
    cases hs
  | case3 c cs lexeme behind hs ih =>
    obtain ⟨name, hname, rfl, hcs⟩ := split?_typeRef_iff.mp hs
    rw [hcs]
    exact reference name behind hname ih

/-! ## Where references are -/

theorem infix_append_of_notMem {c : Char} {xs : List Char} (hc : c ∉ xs)
    (h : (c :: ds) <:+: xs ++ cs) : (c :: ds) <:+: cs := by
  induction xs with
  | nil => exact h
  | cons x xs ih =>
    rcases List.infix_cons_iff.mp h with h | h
    · exact absurd (List.cons_prefix_cons.mp h).1 (List.ne_of_not_mem_cons hc)
    · exact ih (List.not_mem_of_not_mem_cons hc) h

theorem notMem_name (h : Lexeme.IsTypeName name.toList) : '<' ∉ name.toList ++ ['>'] := by
  intro hmem
  rcases List.mem_append.mp hmem with hmem | hmem
  · exact absurd (h.2 _ hmem) (by decide)
  · exact absurd hmem (by decide)

/-- The fragments of a text hold exactly its references. -/
theorem mem_fragmentsOf_iff : .reference name ∈ fragmentsOf cs ↔ RefersTo cs name := by
  induction cs using referenceInduction with
  | nil =>
    rw [fragmentsOf_nil]
    refine iff_of_false List.not_mem_nil fun h => ?_
    exact absurd (List.infix_nil.mp h.2) (by simp [referenceTo])
  | other c cs hc ih =>
    rw [fragmentsOf_cons hc, List.mem_cons, or_iff_right (by simp), ih]
    refine and_congr_right fun hname => ?_
    rw [List.infix_cons_iff, or_iff_right fun h => hc ⟨name, hname, h⟩]
  | reference first cs hfirst ih =>
    rw [fragmentsOf_referenceTo hfirst, List.mem_cons, ih]
    constructor
    · rintro (h | h)
      · cases h
        exact ⟨hfirst, (List.prefix_append _ _).isInfix⟩
      · exact ⟨h.1, h.2.trans (List.suffix_append _ _).isInfix⟩
    · rintro ⟨hname, h⟩
      -- a reference that is not the first one begins behind it
      rcases List.infix_cons_iff.mp h with ⟨rest, h⟩ | h
      · exact .inl (congrArg _ (referenceTo_append_inj hname hfirst h).1)
      · exact .inr ⟨hname, infix_append_of_notMem (notMem_name hfirst) h⟩

/-- A reference refers to its name only. -/
theorem refersTo_referenceTo_iff {used : String} (h : Lexeme.IsTypeName used.toList) :
    RefersTo (referenceTo used) name ↔ name = used := by
  have hfragments := fragmentsOf_referenceTo h []
  rw [List.append_nil, fragmentsOf_nil] at hfragments
  rw [← mem_fragmentsOf_iff, hfragments, List.mem_singleton, Fragment.reference.injEq]

/-! ## Texts that are kept apart -/

/-- Whether no reference that begins in a text reaches over its end into another one. -/
def KeptApart (cs rest : List Char) : Prop :=
  ∀ ds, ds <:+ cs → ds ≠ [] → BeginsWithReference (ds ++ rest) → BeginsWithReference ds

theorem KeptApart.of_suffix (h : KeptApart cs rest) (hs : ds <:+ cs) : KeptApart ds rest :=
  fun es he => h es (he.trans hs)

/-- **The fragments of texts that are kept apart** make up those of the whole. -/
theorem fragmentsOf_append (h : KeptApart cs rest) :
    fragmentsOf (cs ++ rest) = fragmentsOf cs ++ fragmentsOf rest := by
  induction cs using referenceInduction with
  | nil =>
    rw [fragmentsOf_nil]
    rfl
  | other c cs hc ih =>
    have hc' : ¬ BeginsWithReference (c :: (cs ++ rest)) := fun hbegins =>
      hc (h _ List.suffix_rfl (List.cons_ne_nil c cs) hbegins)
    rw [List.cons_append, fragmentsOf_cons hc', fragmentsOf_cons hc, List.cons_append,
      ih (h.of_suffix (List.suffix_cons c cs))]
  | reference name cs hname ih =>
    rw [List.append_assoc, fragmentsOf_referenceTo hname, fragmentsOf_referenceTo hname,
      List.cons_append, ih (h.of_suffix (List.suffix_append _ cs))]

theorem refersTo_append_iff (h : KeptApart cs rest) :
    RefersTo (cs ++ rest) name ↔ RefersTo cs name ∨ RefersTo rest name := by
  rw [← mem_fragmentsOf_iff, fragmentsOf_append h, List.mem_append, mem_fragmentsOf_iff,
    mem_fragmentsOf_iff]

/-- A text without an opening angle bracket is kept apart from any other. -/
theorem keptApart_of_notMem (h : '<' ∉ cs) (rest : List Char) : KeptApart cs rest := by
  rintro ds hs hne ⟨name, -, hprefix⟩
  obtain ⟨d, ds, rfl⟩ := List.exists_cons_of_ne_nil hne
  obtain ⟨rfl, -⟩ := List.cons_prefix_cons.mp hprefix
  exact absurd (hs.subset List.mem_cons_self) h

/-- So is a text behind whose last character no reference can go on. -/
theorem keptApart_concat (cs : List Char) {d : Char} (hd : isNameStart d = false) (hopen : d ≠ '<')
    (rest : List Char) : KeptApart (cs ++ [d]) rest := by
  rintro ds hs hne ⟨name, hname, hprefix⟩
  refine ⟨name, hname, ?_⟩
  obtain ⟨es, rfl, -⟩ := (List.suffix_concat_iff.mp hs).resolve_left hne
  rcases List.prefix_or_prefix_of_prefix hprefix (List.prefix_append (es ++ [d]) rest) with h | h
  · exact h
  -- the reference does not go beyond `d`, which is its closing angle bracket
  · have hconcat : es ++ [d] <+: ('<' :: name.toList) ++ ['>'] := h
    rcases List.prefix_concat_iff.mp hconcat with h | h
    · rw [h]
      exact List.prefix_rfl
    · rcases List.mem_cons.mp (h.subset (List.mem_append_right es List.mem_cons_self)) with h | h
      · exact absurd h hopen
      · exact absurd (hname.2 d h) (by simp [hd])

/-- A character that stands in no reference. -/
abbrev Separates (d : Char) : Prop := d ≠ '<' ∧ d ≠ '>' ∧ isNameStart d = false

theorem notMem_referenceTo {d : Char} (hd : Separates d) (h : Lexeme.IsTypeName name.toList) :
    d ∉ referenceTo name := by
  obtain ⟨hopen, hclose, houtside⟩ := hd
  intro hmem
  rcases List.mem_cons.mp hmem with h' | hmem
  · exact hopen h'
  · rcases List.mem_append.mp hmem with hmem | hmem
    · exact absurd (h.2 d hmem) (by simp [houtside])
    · exact hclose (List.mem_singleton.mp hmem)

/-- Texts are kept apart by a character that stands in no reference. -/
theorem keptApart_separator {d : Char} (hd : Separates d) (cs rest : List Char) :
    KeptApart cs (d :: rest) := by
  rintro ds - - ⟨name, hname, hprefix⟩
  refine ⟨name, hname, ?_⟩
  have hprefix' : ds ++ [d] <+: ds ++ d :: rest :=
    (List.prefix_append_right_inj ds).mpr (List.prefix_append [d] rest)
  rcases List.prefix_or_prefix_of_prefix hprefix hprefix' with h | h
  · refine (List.prefix_concat_iff.mp h).resolve_left fun heq => ?_
    exact notMem_referenceTo hd hname (heq ▸ List.mem_append_right ds List.mem_cons_self)
  · exact absurd (h.subset (List.mem_append_right ds List.mem_cons_self))
      (notMem_referenceTo hd hname)

/-! ## References and pieces -/

theorem notMem_of_run {first next : Char → Bool} (hfirst : first '<' = false)
    (hnext : next '<' = false) (h : Lexeme.run first next cs = some (lexeme, rest)) :
    '<' ∉ lexeme := by
  obtain ⟨c, ds, rfl, hc, hds⟩ := Lexeme.exists_of_run h
  intro hmem
  rcases List.mem_cons.mp hmem with rfl | hmem
  · exact absurd hc (by simp [hfirst])
  · exact absurd (hds _ hmem) (by simp [hnext])

theorem notMem_of_isNumeral (h : Lexeme.IsNumeral cs) : '<' ∉ cs := by
  obtain ⟨whole, tail, rfl, hw, ht⟩ := h
  intro hmem
  rcases List.mem_append.mp hmem with hmem | hmem
  · cases whole with
    | nil => cases hmem
    | cons c ds =>
      rcases hw with ⟨rfl, rfl⟩ | ⟨-, hds⟩
      · exact absurd hmem (by decide)
      · exact absurd (hds _ hmem) (by decide)
  · cases tail with
    | nil => cases hmem
    | cons c ds =>
      obtain ⟨rfl, -, hds⟩ := ht
      rcases List.mem_cons.mp hmem with h | hmem
      · exact absurd h (by decide)
      · exact absurd (hds _ hmem) (by decide)

/-- A quoted text stands between two characters that neither open nor close a reference. -/
structure IsQuotedBy (opening d : Char) (p : Pattern) (ds lexeme : List Char) : Prop where
  eq : lexeme = opening :: (ds ++ [d])
  token : p.token? lexeme = some (.quoted (Pattern.inside lexeme))
  opening_ne : opening ≠ '<'
  closing_ne : d ≠ '<' ∧ d ≠ '>'
  closing_outside : isNameStart d = false

theorem exists_isQuotedBy {opening : Char} {inner closing : Char → Bool} {blankAllowed : Bool}
    (h : Lexeme.enclosed opening inner closing blankAllowed cs = some (lexeme, rest))
    (ht : p.token? lexeme = some (.quoted (Pattern.inside lexeme))) (hopen : opening ≠ '<')
    (hcloses : ∀ d, closing d = true → (d ≠ '<' ∧ d ≠ '>') ∧ isNameStart d = false) :
    ∃ opening d ds, IsQuotedBy opening d p ds lexeme := by
  obtain ⟨ds, d, rfl, -, hd, -⟩ := Lexeme.exists_of_enclosed h
  exact ⟨opening, d, ds, rfl, ht, hopen, (hcloses d hd).1, (hcloses d hd).2⟩

/-- A `<` is only found in references, in quoted texts and in comments. -/
theorem notMem_or_quoted (h : p.split? cs = some (lexeme, rest)) (hp : p ≠ .comment)
    (href : p ≠ .typeRef) :
    '<' ∉ lexeme ∨ ∃ opening d ds, IsQuotedBy opening d p ds lexeme := by
  cases p with
  | comment => exact absurd rfl hp
  | typeRef => exact absurd rfl href
  | blanks => exact .inl (notMem_of_run (by decide) (by decide) h)
  | identifier => exact .inl (notMem_of_run (by decide) (by decide) h)
  | number => exact .inl (notMem_of_isNumeral (Lexeme.isNumeral_of_number h))
  | doubleQuoted | singleQuoted =>
    exact .inr (exists_isQuotedBy h rfl (by decide) (by simp [isNameStart]))
  | curlyQuoted => exact .inr (exists_isQuotedBy h rfl (by decide) (by simp [isNameStart]))
  | _ =>
    rw [(Lexeme.fixed_eq h).2]
    exact .inl (by decide)

/-- A comment ends where its line does. -/
theorem rest_of_comment (h : Pattern.comment.split? cs = some (lexeme, rest)) :
    rest = [] ∨ ∃ ds, rest = '\n' :: ds := by
  obtain ⟨-, -, -, hends⟩ := Lexeme.exists_of_comment h
  cases rest with
  | nil => exact .inl rfl
  | cons d ds => exact .inr ⟨ds, by simpa using hends d rfl⟩

/-- **A piece is kept apart** from what stands behind it. -/
theorem keptApart_of_split? (h : p.split? cs = some (lexeme, rest)) : KeptApart lexeme rest := by
  by_cases hp : p = .comment
  · subst hp
    rcases rest_of_comment h with rfl | ⟨ds, rfl⟩
    · intro ds _ _ hbegins
      rwa [List.append_nil] at hbegins
    · exact keptApart_separator (by decide) lexeme ds
  by_cases href : p = .typeRef
  · subst href
    rw [eq_of_typeRef h]
    exact keptApart_concat ('<' :: _) (by decide) (by decide) rest
  rcases notMem_or_quoted h hp href with hmem | ⟨opening, d, ds, hq⟩
  · exact keptApart_of_notMem hmem rest
  · rw [hq.eq]
    exact keptApart_concat (opening :: ds) hq.closing_outside hq.closing_ne.1 rest

/-- A reference inside a quoted text does not reach its quotes. -/
theorem infix_of_quoted {opening d : Char} {es : List Char} (hq : IsQuotedBy opening d p ds lexeme)
    (h : ('<' :: (es ++ ['>'])) <:+: lexeme) : ('<' :: (es ++ ['>'])) <:+: ds := by
  rw [hq.eq] at h
  rcases List.infix_cons_iff.mp h with h | h
  · exact absurd (List.cons_prefix_cons.mp h).1.symm hq.opening_ne
  rcases List.infix_concat_iff.mp h with h | h
  · rcases List.suffix_concat_iff.mp h with h | ⟨fs, hfs, -⟩
    · cases h
    · rw [← List.cons_append] at hfs
      exact absurd (List.append_inj_right' hfs rfl) (by simp [Ne.symm hq.closing_ne.2])
  · exact h

/-- A quoted text refers to the names that stand between its quotes. -/
theorem refersTo_quoted_iff {opening d : Char} (hq : IsQuotedBy opening d p ds lexeme) :
    RefersTo lexeme name ↔ RefersTo (Pattern.inside lexeme).toList name := by
  have hds : (Pattern.inside lexeme).toList = ds := by rw [hq.eq, toList_inside]
  rw [hds]
  refine and_congr_right fun _ => ⟨infix_of_quoted hq, fun h => h.trans ?_⟩
  rw [hq.eq]
  exact List.infix_cons (List.prefix_append ds [d]).isInfix

/-! ## One pass -/

namespace TypeTable

variable (t : TypeTable)

/-- The fragments that replace a fragment. -/
def replaceFragment : Fragment → List Fragment
  | .other c => [.other c]
  | .reference name =>
    match t.get? name with
    | some definition => .other '[' :: (fragmentsOf definition.toList ++ [.other ']'])
    | none => [.reference name]

/-- A text with every reference to a defined name replaced once. -/
def replaced (cs : List Char) : List Char := (fragmentsOf cs).flatMap t.replacement

variable {t}

theorem toList_substitute (text : String) :
    (t.substitute text).toList = t.replaced text.toList := String.toList_ofList

@[simp] theorem replaced_nil : t.replaced [] = [] := by
  rw [replaced, fragmentsOf_nil, List.flatMap_nil]

theorem replaced_cons {c : Char} (h : ¬ BeginsWithReference (c :: cs)) :
    t.replaced (c :: cs) = c :: t.replaced cs := by
  rw [replaced, fragmentsOf_cons h, List.flatMap_cons]
  rfl

theorem replaced_undefined (h : Lexeme.IsTypeName name.toList) (hnone : t.get? name = none) :
    t.replaced (referenceTo name ++ cs) = referenceTo name ++ t.replaced cs := by
  rw [replaced, fragmentsOf_referenceTo h, List.flatMap_cons, replacement, hnone]
  rfl

theorem replaced_defined {definition : String} (h : Lexeme.IsTypeName name.toList)
    (hd : t.get? name = some definition) :
    t.replaced (referenceTo name ++ cs) =
      '[' :: (definition.toList ++ ']' :: t.replaced cs) := by
  rw [replaced, fragmentsOf_referenceTo h, List.flatMap_cons, replacement, hd]
  simp [replaced]

/-- What stands at the front after a pass, and has neither an opening bracket nor a reference in it,
stood there before. -/
theorem prefix_of_prefix_replaced (hds : '[' ∉ ds ∧ '<' ∉ ds) (h : ds <+: t.replaced cs) :
    ds <+: cs := by
  induction cs using referenceInduction generalizing ds with
  | nil => rwa [replaced_nil] at h
  | other c cs hc ih =>
    rw [replaced_cons hc] at h
    cases ds with
    | nil => exact List.nil_prefix
    | cons d ds =>
      obtain ⟨hd, hprefix⟩ := List.cons_prefix_cons.mp h
      exact List.cons_prefix_cons.mpr ⟨hd, ih ⟨List.not_mem_of_not_mem_cons hds.1,
        List.not_mem_of_not_mem_cons hds.2⟩ hprefix⟩
  | reference name cs hname ih =>
    cases ds with
    | nil => exact List.nil_prefix
    | cons d ds =>
      cases hd : t.get? name with
      | none =>
        rw [replaced_undefined hname hd] at h
        obtain ⟨rfl, -⟩ := List.cons_prefix_cons.mp h
        exact absurd List.mem_cons_self hds.2
      | some definition =>
        rw [replaced_defined hname hd] at h
        obtain ⟨rfl, -⟩ := List.cons_prefix_cons.mp h
        exact absurd List.mem_cons_self hds.1

/-- A pass makes no reference at the front. -/
theorem not_beginsWithReference_replaced {c : Char} (h : ¬ BeginsWithReference (c :: cs)) :
    ¬ BeginsWithReference (c :: t.replaced cs) := by
  rintro ⟨name, hname, hprefix⟩
  obtain ⟨hc, hname'⟩ := List.cons_prefix_cons.mp hprefix
  have hbracket : '[' ∉ name.toList ++ ['>'] :=
    List.not_mem_of_not_mem_cons (notMem_referenceTo (by decide) hname)
  have hcs := prefix_of_prefix_replaced ⟨hbracket, notMem_name hname⟩ hname'
  exact h ⟨name, hname, List.cons_prefix_cons.mpr ⟨hc, hcs⟩⟩

/-- **One pass over a text replaces its fragments**, one by one. -/
theorem fragmentsOf_replaced (cs : List Char) :
    fragmentsOf (t.replaced cs) = (fragmentsOf cs).flatMap t.replaceFragment := by
  induction cs using referenceInduction with
  | nil => rw [replaced_nil, fragmentsOf_nil, List.flatMap_nil]
  | other c cs hc ih =>
    rw [replaced_cons hc, fragmentsOf_cons (not_beginsWithReference_replaced hc),
      fragmentsOf_cons hc, ih, List.flatMap_cons]
    rfl
  | reference name cs hname ih =>
    rw [fragmentsOf_referenceTo hname, List.flatMap_cons, replaceFragment, ← ih]
    cases hd : t.get? name with
    | none =>
      rw [replaced_undefined hname hd, fragmentsOf_referenceTo hname]
      rfl
    | some definition =>
      rw [replaced_defined hname hd, fragmentsOf_cons (not_beginsWithReference_of_ne (by decide)),
        fragmentsOf_append (keptApart_separator (by decide) _ _),
        fragmentsOf_cons (not_beginsWithReference_of_ne (by decide)), List.cons_append,
        List.append_assoc]
      rfl

/-- **What a text refers to after a pass**: the names without a definition that it referred to, and
what the definitions of the others refer to. -/
theorem refersTo_substitute_iff {text : String} : RefersTo (t.substitute text).toList name ↔
    (RefersTo text.toList name ∧ t.get? name = none) ∨
      ∃ used definition, RefersTo text.toList used ∧ t.get? used = some definition ∧
        RefersTo definition.toList name := by
  rw [toList_substitute, ← mem_fragmentsOf_iff, fragmentsOf_replaced, List.mem_flatMap]
  constructor
  · rintro ⟨f, hf, h⟩
    cases f with
    | other c => simp [replaceFragment] at h
    | reference used =>
      rw [mem_fragmentsOf_iff] at hf
      rw [replaceFragment] at h
      cases hd : t.get? used with
      | none =>
        rw [hd] at h
        obtain rfl := Fragment.reference.inj (List.mem_singleton.mp h)
        exact .inl ⟨hf, hd⟩
      | some definition =>
        rw [hd] at h
        exact .inr ⟨used, definition, hf, hd, mem_fragmentsOf_iff.mp (by simpa using h)⟩
  · rintro (⟨hf, hd⟩ | ⟨used, definition, hf, hd, h⟩)
    · exact ⟨_, mem_fragmentsOf_iff.mpr hf, by rw [replaceFragment, hd]; exact List.mem_cons_self⟩
    · refine ⟨_, mem_fragmentsOf_iff.mpr hf, ?_⟩
      rw [replaceFragment, hd]
      simpa using mem_fragmentsOf_iff.mpr h

theorem replaced_eq_self_iff :
    t.replaced cs = cs ↔ ∀ name, RefersTo cs name → t.get? name = none := by
  simp only [← mem_fragmentsOf_iff]
  induction cs using referenceInduction with
  | nil => simp [fragmentsOf_nil]
  | other c cs hc ih =>
    rw [replaced_cons hc, fragmentsOf_cons hc, List.cons_inj_right, ih]
    simp
  | reference name cs hname ih =>
    rw [fragmentsOf_referenceTo hname]
    cases hd : t.get? name with
    | none =>
      rw [replaced_undefined hname hd, List.append_cancel_left_eq, ih]
      simp [hd]
    | some definition =>
      -- where a definition comes in, a bracket stands for the angle bracket
      rw [replaced_defined hname hd]
      refine iff_of_false (fun h => ?_) fun h => ?_
      · exact absurd (List.cons.inj h).1 (by decide)
      · exact absurd (h name List.mem_cons_self) (by simp [hd])

/-- **A pass leaves a text as it is** exactly if it refers to no defined name. -/
theorem substitute_eq_self_iff {text : String} :
    t.substitute text = text ↔ ∀ name, RefersTo text.toList name → t.get? name = none := by
  rw [← replaced_eq_self_iff, ← toList_substitute, String.toList_inj]

end TypeTable

end ValueGrammar
