import ValueGrammar.Proofs.Unfolding

/-!
# Names that are only mentioned

Where `<a>` stands for itself, it is scanned as a reference to a type. Inside a quoted text or a
comment it is none: the name is only mentioned there. An expansion does not scan the text, and
takes a mention for a reference. It puts the definition into the quotes or the comment, or reports
the name if it has none. A text without type tokens is left alone exactly if it mentions no name.

Headlines:
* **`refersTo_piece_iff`**: a piece refers to a name if it is its token, or mentions it.
* **`refersTo_iff_mentions`**: an expansion finds the type tokens of a text, and its mentions.
* **`expand_iff_mentions`**: what is expanded in a text without type tokens.
* **`mentions_expanded`**: a quoted text is changed, and a name in a comment is reported.
-/

namespace ValueGrammar

variable {p : Pattern} {cs lexeme rest : List Char} {name : String}

/-! ## Mentions -/

/-- Whether a piece mentions a name: it is a comment or a quoted text, and the name stands in it in
angle brackets. -/
def Piece.Mentions (p : Piece) (name : String) : Prop :=
  (p.pattern = .comment ∧ RefersTo p.text name) ∨
    ∃ text, p.token? = some (.quoted text) ∧ RefersTo text.toList name

/-- Whether a piece of a text mentions a name. -/
def Mentions (cs : List Char) (name : String) : Prop := ∃ p ∈ pieces cs, p.Mentions name

theorem not_mentions_of_token {u : Token} (h : p.token? lexeme = some u)
    (hu : ∀ text, u ≠ .quoted text) : ¬ Piece.Mentions ⟨p, lexeme⟩ name := by
  rintro (⟨hp, -⟩ | ⟨text, htext, -⟩)
  · obtain rfl : p = .comment := hp
    cases h
  · exact hu text (Option.some.inj (h.symm.trans htext))

theorem not_mentions_of_notMem {p : Piece} (h : '<' ∉ p.text) : ¬ p.Mentions name := by
  rintro (⟨-, -, href⟩ | ⟨text, htext, -, href⟩)
  · exact h (href.subset List.mem_cons_self)
  · obtain ⟨pattern, lexeme⟩ := p
    have hinside : Pattern.inside lexeme = text := by
      cases pattern with
      | doubleQuoted | singleQuoted | curlyQuoted => exact Token.quoted.inj (Option.some.inj htext)
      | _ => cases htext
    rw [← hinside, Pattern.inside, String.toList_ofList] at href
    exact h (List.mem_of_mem_tail (List.dropLast_subset _ (href.subset List.mem_cons_self)))

/-- **What a piece refers to**: the name that is its token, or what it mentions. -/
theorem refersTo_piece_iff (h : p.split? cs = some (lexeme, rest)) :
    RefersTo lexeme name ↔
      p.token? lexeme = some (.typeRef name) ∨ Piece.Mentions ⟨p, lexeme⟩ name := by
  by_cases hp : p = .comment
  · subst hp
    constructor
    · exact fun href => .inr (.inl ⟨rfl, href⟩)
    · rintro (htoken | ⟨-, href⟩ | ⟨text, htext, -⟩)
      · cases htoken
      · exact href
      · cases htext
  by_cases href : p = .typeRef
  · subst href
    obtain ⟨used, hused, rfl, -⟩ := split?_typeRef_iff.mp h
    have htoken : Pattern.typeRef.token? (referenceTo used) = some (.typeRef used) := by
      rw [Pattern.token?, inside_referenceTo]
    rw [or_iff_left (not_mentions_of_token htoken (by simp)), refersTo_referenceTo_iff hused,
      htoken, Option.some_inj, Token.typeRef.injEq, eq_comm]
  have hnone : p.token? lexeme ≠ some (.typeRef name) := by
    cases p with
    | typeRef => exact absurd rfl href
    | _ => simp [Pattern.token?]
  rw [or_iff_right hnone]
  rcases notMem_or_quoted h hp href with hmem | ⟨opening, d, ds, hq⟩
  · refine iff_of_false (fun href => ?_) (not_mentions_of_notMem hmem)
    exact hmem (href.2.subset List.mem_cons_self)
  · rw [refersTo_quoted_iff hq]
    constructor
    · exact fun hinside => .inr ⟨_, hq.token, hinside⟩
    · rintro (⟨hcomment, -⟩ | ⟨text, htext, hinside⟩)
      · exact absurd hcomment hp
      · obtain rfl := Token.quoted.inj (Option.some.inj (hq.token.symm.trans htext))
        exact hinside

/-- **What a text refers to**: the names that are its tokens, and those that it mentions. -/
theorem refersTo_iff_mentions (h : Cuttable cs) :
    RefersTo cs name ↔ .typeRef name ∈ tokensOf (pieces cs) ∨ Mentions cs name := by
  induction h with
  | nil =>
    rw [Mentions, pieces_nil, ← mem_fragmentsOf_iff, fragmentsOf_nil]
    simp [tokensOf]
  | @cons p cs lexeme rest h _ ih =>
    have hsplit := Pattern.split?_of_first? h
    have hrefers : RefersTo cs name ↔
        (p.token? lexeme = some (.typeRef name) ∨ Piece.Mentions ⟨p, lexeme⟩ name) ∨
          .typeRef name ∈ tokensOf (pieces rest) ∨ Mentions rest name := by
      rw [← append_of_first? h, refersTo_append_iff (keptApart_of_split? hsplit),
        refersTo_piece_iff hsplit, ih]
    have htokens : .typeRef name ∈ tokensOf (pieces cs) ↔
        p.token? lexeme = some (.typeRef name) ∨ .typeRef name ∈ tokensOf (pieces rest) := by
      rw [pieces_of_first? h, tokensOf, tokensOf, List.mem_filterMap, List.mem_filterMap,
        List.exists_mem_cons_iff]
      rfl
    have hmentions : Mentions cs name ↔
        Piece.Mentions ⟨p, lexeme⟩ name ∨ Mentions rest name := by
      rw [Mentions, pieces_of_first? h, List.exists_mem_cons_iff]
      rfl
    rw [hrefers, htokens, hmentions, or_or_or_comm]

/-! ## Expansion -/

namespace TypeTable

variable {t : TypeTable} {e : String} {ts : List Token}

/-- **What is expanded in a text without type tokens.** It comes out as it is, with no name
reported, exactly if it mentions no name; and as it is at all, exactly if no name that it mentions
is defined. Then the names that are reported are those that it mentions. -/
theorem expand_iff_mentions (hpos : 0 < t.maxPasses) (hts : tokenize e = .ok ts)
    (htypes : ∀ name, .typeRef name ∉ ts) :
    ((∃ x, t.expand e = .ok x ∧ x.text = e ∧ x.unresolved = []) ↔
      ∀ name, ¬ Mentions e.toList name) ∧
    ((∃ x, t.expand e = .ok x ∧ x.text = e) ↔
      ∀ name, Mentions e.toList name → t.get? name = none) ∧
    ∀ x, t.expand e = .ok x → x.text = e →
      ∀ name, name ∈ x.unresolved ↔ Mentions e.toList name := by
  obtain ⟨hcut, htokens⟩ := lexed_iff_pieces.mp ((lexed_iff 0).mpr hts)
  have hrefers (name : String) : RefersTo e.toList name ↔ Mentions e.toList name := by
    rw [refersTo_iff_mentions hcut, htokens, or_iff_right (htypes name)]
  have hreported : ∀ x, t.expand e = .ok x → x.text = e →
      ∀ name, name ∈ x.unresolved ↔ Mentions e.toList name := by
    intro x hx htext name
    rw [mem_unresolved_iff hx, htext, hrefers]
  have hself : (∃ x, t.expand e = .ok x ∧ x.text = e) ↔
      ∀ name, Mentions e.toList name → t.get? name = none := by
    constructor
    · rintro ⟨x, hx, htext⟩ name hname
      have hundefined := (settled_of_expand hx).1.undefined name
      rw [htext] at hundefined
      exact hundefined ((hrefers name).mpr hname)
    · intro h
      obtain ⟨names, hx⟩ := expand_self hpos fun name href => h name ((hrefers name).mp href)
      exact ⟨_, hx, rfl⟩
  refine ⟨⟨?_, fun h => ?_⟩, hself, hreported⟩
  · rintro ⟨x, hx, htext, hnone⟩ name hname
    have hmem := (hreported x hx htext name).mpr hname
    rw [hnone] at hmem
    cases hmem
  · obtain ⟨x, hx, htext⟩ := hself.mpr fun name hname => absurd hname (h name)
    refine ⟨x, hx, htext, List.eq_nil_iff_forall_not_mem.mpr fun name hname => ?_⟩
    exact h name ((hreported x hx htext name).mp hname)

/-- A quoted name outside of angle brackets and a comment with one bracket are no mentions; and a
quoted name without a definition is one, and is reported. -/
theorem expand_iff_mentions_quoted :
    ∃ t : TypeTable, 0 < t.maxPasses ∧ t.get? "a" = some "x" ∧
      (t.expand "\x22a\x22 // <" = .ok ⟨"\x22a\x22 // <", [], 0⟩ ∧
        ∀ name, ¬ Mentions "\x22a\x22 // <".toList name) ∧
      (t.expand "\x22<b>\x22" = .ok ⟨"\x22<b>\x22", ["b"], 0⟩ ∧
        ∀ name, Mentions "\x22<b>\x22".toList name ↔ name = "b") := by
  let t : TypeTable := .ofList [("a", "x")]
  have hplain : t.expand "\x22a\x22 // <" = .ok ⟨"\x22a\x22 // <", [], 0⟩ := by decide +kernel
  have hquoted : t.expand "\x22<b>\x22" = .ok ⟨"\x22<b>\x22", ["b"], 0⟩ := by decide +kernel
  refine ⟨t, by decide, by decide +kernel, ⟨hplain, ?_⟩, hquoted, fun name => ?_⟩
  · have hts : tokenize "\x22a\x22 // <" = .ok [.quoted "a"] := by decide +kernel
    exact (expand_iff_mentions (by decide) hts (by simp)).1.mp ⟨_, hplain, rfl, rfl⟩
  · have hts : tokenize "\x22<b>\x22" = .ok [.quoted "<b>"] := by decide +kernel
    have hreported := (expand_iff_mentions (by decide) hts (by simp)).2.2 _ hquoted rfl name
    exact hreported.symm.trans List.mem_singleton

/-- **Texts without type tokens that are not left alone**: a quoted name is replaced by its
definition, and a name in a comment is reported as one without a definition. -/
theorem mentions_expanded :
    0 < (ofList [("a", "x")]).maxPasses ∧
    (tokenize "\x22<a>\x22" = .ok [.quoted "<a>"] ∧
      (ofList [("a", "x")]).expand "\x22<a>\x22" = .ok ⟨"\x22[x]\x22", [], 1⟩) ∧
    tokenize "b // <c>" = .ok [.identifier "b"] ∧
      (ofList [("a", "x")]).expand "b // <c>" = .ok ⟨"b // <c>", ["c"], 0⟩ := by
  decide +kernel

end TypeTable

end ValueGrammar
