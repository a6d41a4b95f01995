import ValueGrammar.Proofs.Lines
import ValueGrammar.Proofs.Munch

/-!
# The tokens of an input tile it

Asked again and again, a lexer goes through its input from the front to the end. Each token takes up
a text of its own, the texts of the tokens lie one behind another, and what is left between them is
blank or a comment. It stops at the end of the input, or in front of a character where no pattern has
a text, and gives the same answer from then on.

Headlines:
* **`Token.TakesUp`**, **`IsGap`**, **`Tiled`**: the text of a token, the text between tokens, and
  the two in turn up to the end or a fault.
* **`exists_tiled`**: the answers of a scan tile its text, and the last one is given for ever.
* **`Tiled.pairwise`**, **`Tiled.length_le`**: the offsets of tiles ascend, and there are no more
  tiles than bytes.
* **`tokens_tile_input`**: the answers of a lexer tile its input.
-/

namespace ValueGrammar

variable {passed cs gap lexeme rest behind : List Char} {p : Pattern} {t : Token}
  {tokens : List Lexer.Answer} {last : Lexer.Answer}

/-! ## Tiles -/

/-- The opening and closing quotes that go together. -/
def quotePairs : List (Char × Char) :=
  [('\x22', '\x22'), ('\x27', '\x27'), ('‘', '’'), ('‘', '‘')]

/-- **The text that a token takes up**: its own text, which for the name of a type and for a quoted
text is all but the first and the last character, or its sign. -/
def Token.TakesUp : Token → List Char → Prop
  | .identifier text, lexeme | .number text, lexeme => lexeme = text.toList
  | .typeRef name, lexeme => lexeme = '<' :: (name.toList ++ ['>'])
  | .quoted text, lexeme => ∃ q ∈ quotePairs, lexeme = q.1 :: (text.toList ++ [q.2])
  | .doubleBar, lexeme => lexeme = ['|', '|']
  | .bar, lexeme => lexeme = ['|']
  | .doubleAmpersand, lexeme => lexeme = ['&', '&']
  | .star, lexeme => lexeme = ['*']
  | .plus, lexeme => lexeme = ['+']
  | .question, lexeme => lexeme = ['?']
  | .hash, lexeme => lexeme = ['#']
  | .openBrace, lexeme => lexeme = ['\x7b']
  | .closeBrace, lexeme => lexeme = ['\x7d']
  | .openBracket, lexeme => lexeme = ['[']
  | .closeBracket, lexeme => lexeme = [']']
  | .comma, lexeme => lexeme = [',']
  | .endOfInput, _ => False

/-- **A gap** in front of the rest of a text: runs of blanks, and comments that go on to the ends of
their lines. -/
inductive IsGap (behind : List Char) : List Char → Prop
  | nil : IsGap behind []
  | blanks {bs gap : List Char} (h : bs ∈ Pattern.blanks.language) (hgap : IsGap behind gap) :
      IsGap behind (bs ++ gap)
  | comment {ds gap : List Char} (h : ds ∈ Pattern.comment.language)
      (hends : EndsLine (gap ++ behind)) (hgap : IsGap behind gap) : IsGap behind (ds ++ gap)

/-- **Answers tile a text** behind what has been passed. Each token takes up a text, in front of
which there is a gap, and is answered with the offset of that text. The last answer is the end of
the input behind a last gap, or a character where no pattern has a text. -/
inductive Tiled : List Char → List Char → List Lexer.Answer → Lexer.Answer → Prop
  | endOfInput {passed gap : List Char} (hgap : IsGap [] gap) :
      Tiled passed gap [] (.ok .endOfInput, byteLength (passed ++ gap))
  | fault {passed gap rest : List Char} {c : Char} (hgap : IsGap (c :: rest) gap)
      (hnone : ∀ (p : Pattern), ∀ w ∈ p.language, ¬ w <+: c :: rest) :
      Tiled passed (gap ++ c :: rest) []
        (.error ⟨byteLength (passed ++ gap), c⟩, byteLength (passed ++ gap))
  | token {passed gap lexeme rest : List Char} {t : Token} {tokens : List Lexer.Answer}
      {last : Lexer.Answer} (hgap : IsGap (lexeme ++ rest) gap) (hne : lexeme ≠ [])
      (ht : t.TakesUp lexeme) (hrest : Tiled (passed ++ gap ++ lexeme) rest tokens last) :
      Tiled passed (gap ++ (lexeme ++ rest)) ((.ok t, byteLength (passed ++ gap)) :: tokens) last

/-! ## The answers of a scan -/

theorem takesUp_quoted {opening closing : Char} (h : (opening, closing) ∈ quotePairs)
    (ds : List Char) : (Token.quoted (Pattern.inside (opening :: (ds ++ [closing])))).TakesUp
      (opening :: (ds ++ [closing])) :=
  ⟨_, h, by rw [toList_inside]⟩

/-- The token of a lexeme takes up the lexeme. -/
theorem takesUp_of_split? (h : p.split? cs = some (lexeme, rest)) (ht : p.token? lexeme = some t) :
    t.TakesUp lexeme := by
  cases p with
  | blanks | comment => cases ht
  | identifier | number =>
    cases ht
    exact String.toList_ofList.symm
  | typeRef =>
    obtain ⟨ds, d, rfl, -, hd, -⟩ := Lexeme.exists_of_enclosed h
    cases ht
    obtain rfl := of_decide_eq_true hd
    rw [Token.TakesUp, toList_inside]
  | doubleQuoted | singleQuoted =>
    obtain ⟨ds, d, rfl, -, hd, -⟩ := Lexeme.exists_of_enclosed h
    cases ht
    obtain rfl := of_decide_eq_true hd
    exact takesUp_quoted (by decide) ds
  | curlyQuoted =>
    obtain ⟨ds, d, rfl, -, hd, -⟩ := Lexeme.exists_of_enclosed h
    cases ht
    rcases Bool.or_eq_true_iff.mp hd with hd | hd <;> obtain rfl := of_decide_eq_true hd
    · exact takesUp_quoted (by decide) ds
    · exact takesUp_quoted (by decide) ds
  | _ =>
    cases ht
    exact (Lexeme.fixed_eq h).2

/-- A lexeme without a token prolongs the gap behind it. -/
theorem isGap_of_split? (h : p.split? (lexeme ++ (gap ++ behind)) = some (lexeme, gap ++ behind))
    (ht : p.token? lexeme = none) (hgap : IsGap behind gap) : IsGap behind (lexeme ++ gap) := by
  have hmem := Pattern.mem_language_of_split? h
  cases p with
  | blanks => exact .blanks hmem hgap
  | comment => exact .comment hmem (Lexeme.endsLine_of_comment h) hgap
  | _ => cases ht

/-- A lexeme without a token in front of a tiled text belongs to its first gap. -/
theorem Tiled.skip (h : p.split? (lexeme ++ cs) = some (lexeme, cs)) (ht : p.token? lexeme = none)
    (hcs : Tiled (passed ++ lexeme) cs tokens last) : Tiled passed (lexeme ++ cs) tokens last := by
  cases hcs with
  | @endOfInput _ gap hgap =>
    rw [List.append_assoc]
    exact .endOfInput (isGap_of_split? (by rwa [List.append_nil]) ht hgap)
  | fault hgap hnone =>
    rw [List.append_assoc, ← List.append_assoc lexeme]
    exact .fault (isGap_of_split? h ht hgap) hnone
  | token hgap hne htext hrest =>
    rw [List.append_assoc passed] at hrest ⊢
    rw [← List.append_assoc lexeme]
    exact .token (isGap_of_split? h ht hgap) hne htext hrest

/-- **The answers of a scan tile its text**, and the last one is given for ever. -/
theorem exists_tiled (offset : Nat) (cs : List Char) : ∀ passed, byteLength passed = offset →
    ∃ tokens last, Tiled passed cs tokens last ∧
      ∀ n, (scanFrom offset cs).answers (tokens.length + n) = tokens ++ List.replicate n last := by
  fun_induction scanFrom offset cs with
  | case1 offset =>
    rintro passed rfl
    have h : Tiled passed [] [] (.ok .endOfInput, byteLength (passed ++ [])) := .endOfInput .nil
    rw [List.append_nil] at h
    refine ⟨[], _, h, fun n => ?_⟩
    rw [List.length_nil, Nat.zero_add, Scan.answers, List.nil_append]
  | case2 offset c cs hf =>
    rintro passed rfl
    have h : Tiled passed (c :: cs) []
        (.error ⟨byteLength (passed ++ []), c⟩, byteLength (passed ++ [])) :=
      .fault .nil (Pattern.first?_eq_none_iff.mp hf)
    rw [List.append_nil] at h
    refine ⟨[], _, h, fun n => ?_⟩
    rw [List.length_nil, Nat.zero_add, Scan.answers, List.nil_append]
  | case3 offset c cs p lexeme rest hf ht ih =>
    rintro passed rfl
    have hsplit := Pattern.split?_of_first? hf
    obtain ⟨tokens, last, htiled, hanswers⟩ := ih _ (byteLength_append passed lexeme)
    have happ := Pattern.append_of_split? hsplit
    rw [← happ] at hsplit ⊢
    exact ⟨tokens, last, htiled.skip hsplit ht, hanswers⟩
  | case4 offset c cs p lexeme rest hf t ht ih =>
    rintro passed rfl
    have hsplit := Pattern.split?_of_first? hf
    obtain ⟨tokens, last, htiled, hanswers⟩ := ih _ (byteLength_append passed lexeme)
    have htoken : Tiled passed ([] ++ (lexeme ++ rest))
        ((.ok t, byteLength (passed ++ [])) :: tokens) last :=
      .token .nil (Pattern.ne_nil_of_split? hsplit) (takesUp_of_split? hsplit ht)
        (by rwa [List.append_nil])
    rw [List.append_nil, List.nil_append, Pattern.append_of_split? hsplit] at htoken
    refine ⟨_, last, htoken, fun n => ?_⟩
    rw [List.length_cons, Nat.add_right_comm, Scan.answers, hanswers, List.cons_append]

/-! ## What tilings have in common -/

namespace Tiled

/-- There are no more tiles than bytes. -/
theorem length_le (h : Tiled passed cs tokens last) : tokens.length ≤ byteLength cs := by
  induction h with
  | endOfInput => exact Nat.zero_le _
  | fault => exact Nat.zero_le _
  | token hgap hne ht hrest ih =>
    have hpos := byteLength_pos hne
    rw [List.length_cons, byteLength_append, byteLength_append]
    omega

/-- Each answer is given at a place between two characters. -/
theorem exists_append (h : Tiled passed cs tokens last) : ∀ a ∈ tokens ++ [last],
    ∃ before after, passed ++ cs = passed ++ before ++ after ∧
      byteLength (passed ++ before) = a.2 := by
  induction h with
  | @endOfInput passed gap hgap =>
    exact List.forall_mem_singleton.mpr ⟨gap, [], (List.append_nil _).symm, rfl⟩
  | @fault passed gap rest c hgap hnone =>
    exact List.forall_mem_singleton.mpr ⟨gap, c :: rest, (List.append_assoc _ _ _).symm, rfl⟩
  | @token passed gap lexeme rest t tokens last hgap hne ht hrest ih =>
    refine List.forall_mem_cons.mpr ⟨⟨gap, lexeme ++ rest, (List.append_assoc _ _ _).symm, rfl⟩, ?_⟩
    intro a ha
    obtain ⟨before, after, happ, hoffset⟩ := ih a ha
    refine ⟨gap ++ lexeme ++ before, after, ?_, ?_⟩
    · simpa only [List.append_assoc] using happ
    · simpa only [List.append_assoc] using hoffset

/-- The offsets of tiles ascend, up to that of the last answer. -/
theorem pairwise (h : Tiled passed cs tokens last) :
    (tokens ++ [last]).Pairwise fun a b => a.2 < b.2 := by
  induction h with
  | endOfInput => exact List.pairwise_singleton _ _
  | fault => exact List.pairwise_singleton _ _
  | @token passed gap lexeme rest t tokens last hgap hne ht hrest ih =>
    refine List.pairwise_cons.mpr ⟨fun a ha => ?_, ih⟩
    obtain ⟨before, after, -, hoffset⟩ := hrest.exists_append a ha
    have hpos := byteLength_pos hne
    rw [← hoffset]
    simp only [byteLength_append]
    omega

/-- The last answer is the end of the text, or an error at its own offset. -/
theorem last_eq (h : Tiled passed cs tokens last) :
    last = (.ok .endOfInput, byteLength (passed ++ cs)) ∨ ∃ e, last = (.error e, e.offset) := by
  induction h with
  | endOfInput => exact .inl rfl
  | fault => exact .inr ⟨_, rfl⟩
  | token hgap hne ht hrest ih =>
    rw [List.append_assoc, List.append_assoc] at ih
    exact ih

end Tiled

/-- **The tokens of an input tile it.** Asked again and again, a lexer answers tokens, and then the
same last answer for ever. The answers tile the input, at places between its characters that ascend
strictly. The last one is the end of the input, at its byte length, or an error, and it comes after
no more tokens than there are bytes. -/
theorem tokens_tile_input (input : String) :
    ∃ tokens last, Tiled [] input.toList tokens last ∧
      (tokens ++ [last]).Pairwise (fun a b => a.2 < b.2) ∧
      (∀ a ∈ tokens ++ [last], ∃ before after : String, input = before ++ after ∧
        before.utf8ByteSize = a.2) ∧
      (last = (.ok .endOfInput, input.utf8ByteSize) ∨ ∃ e, last = (.error e, e.offset)) ∧
      tokens.length ≤ input.utf8ByteSize ∧
      ∀ n, (Lexer.ofInput input).answers (tokens.length + n) =
        tokens ++ List.replicate n last := by
  obtain ⟨tokens, last, htiled, hanswers⟩ := exists_tiled 0 input.toList [] rfl
  refine ⟨tokens, last, htiled, htiled.pairwise, fun a ha => ?_, ?_, ?_, fun n => ?_⟩
  · obtain ⟨before, after, happ, hoffset⟩ := htiled.exists_append a ha
    refine ⟨String.ofList before, String.ofList after, ?_, ?_⟩
    · rw [← String.ofList_append, ← String.ofList_toList (s := input)]
      exact congrArg String.ofList happ
    · rw [← byteLength_toList, String.toList_ofList]
      exact hoffset
  · rw [← byteLength_toList]
    exact htiled.last_eq
  · rw [← byteLength_toList]
    exact htiled.length_le
  · rw [Lexer.answers_eq]
    exact hanswers n

end ValueGrammar
