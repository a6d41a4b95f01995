import ValueGrammar.Proofs.Lines

/-!
# Texts on two lines

Where a text begins moves all offsets of its scan alike. And no lexeme of a text goes on in the next
line, so the scan of two lines is the scan of the first one, as far as its end, and then that of the
second one with its offsets moved behind the line break.

Headlines:
* **`scanFrom_add`**: a scan that begins later is the same scan, moved.
* **`scan_nextLine`**: the scan of two lines is that of the first and then that of the second, moved.
* **`tokenize_nextLine`**: the tokens of two lines stand one after the other, and a lexer answers
  them, and the fault if there is one, at their offsets.
-/

namespace ValueGrammar

variable {cs : List Char} {ts : List Token} {s : Scan}

/-! ## Moved scans -/

/-- An error that is found some bytes later. -/
def LexError.moved (bytes : Nat) (e : LexError) : LexError := ⟨e.offset + bytes, e.found⟩

/-- An answer that is given some bytes later. -/
def Lexer.moveAnswer (bytes : Nat) (a : Answer) : Answer :=
  (a.1.mapError (LexError.moved bytes), a.2 + bytes)

namespace Scan

/-- A scan that begins some bytes later. -/
def moved (bytes : Nat) : Scan → Scan
  | .token t offset rest => .token t (offset + bytes) (rest.moved bytes)
  | .finished length => .finished (length + bytes)
  | .fault e => .fault (e.moved bytes)

/-- A moved scan has the same tokens, or its fault as many bytes later. -/
theorem tokens_moved (bytes : Nat) (s : Scan) :
    (s.moved bytes).tokens = s.tokens.mapError (LexError.moved bytes) := by
  induction s with
  | token t offset rest ih =>
    rw [moved, tokens, ih, tokens]
    cases rest.tokens <;> rfl
  | finished length => rfl
  | fault e => rfl

/-- A moved scan gives the same answers, as many bytes later. -/
theorem answers_moved (bytes : Nat) (s : Scan) (n : Nat) :
    (s.moved bytes).answers n = (s.answers n).map (Lexer.moveAnswer bytes) := by
  induction s generalizing n with
  | token t offset rest ih =>
    cases n with
    | zero => rfl
    | succ n => rw [moved, answers, answers, List.map_cons, ih]; rfl
  | finished length => rw [moved, answers, answers, List.map_replicate]; rfl
  | fault e => rw [moved, answers, answers, List.map_replicate]; rfl

/-- A scan that goes on where another one finishes gives the answers of both. -/
theorem answers_andThen (h : s.tokens = .ok ts) (next : Scan) (n : Nat) :
    (s.andThen next).answers (ts.length + n) = s.answers ts.length ++ next.answers n := by
  induction s generalizing ts with
  | token t offset rest ih =>
    obtain ⟨us, hus, rfl⟩ := tokens_token_eq_ok_iff.mp h
    rw [andThen, List.length_cons, Nat.add_right_comm, answers, ih hus, answers, List.cons_append]
  | finished length =>
    cases h
    rw [andThen, List.length_nil, Nat.zero_add]
    rfl
  | fault e => cases h

end Scan

/-- **A scan that begins later** is the same scan, moved. -/
theorem scanFrom_add (bytes offset : Nat) (cs : List Char) :
    scanFrom (offset + bytes) cs = (scanFrom offset cs).moved bytes := by
  fun_induction scanFrom offset cs with
  | case1 offset => rw [scanFrom_nil, Scan.moved]
  | case2 offset c cs hf => rw [scanFrom_fault hf, Scan.moved, LexError.moved]
  | case3 offset c cs p lexeme rest hf ht ih =>
    rw [scanFrom_skip hf ht, Nat.add_right_comm, ih]
  | case4 offset c cs p lexeme rest hf t ht ih =>
    rw [scanFrom_token hf ht, Nat.add_right_comm, ih, Scan.moved]

/-! ## The next line -/

/-- A text with tokens up to its end is cut off in front of nothing. -/
theorem cutsOff_of_lexed (h : Lexed cs ts) : CutsOff [] cs ts := by
  obtain ⟨hcuttable, rfl⟩ := lexed_iff_pieces.mp h
  clear h
  induction hcuttable with
  | nil =>
    rw [pieces_nil]
    exact .nil
  | @cons p cs lexeme rest h _ ih =>
    rw [pieces_of_first? h]
    have happ := append_of_first? h
    rw [← happ] at h ⊢
    have hcut : Pattern.first? (lexeme ++ (rest ++ [])) = some (p, lexeme, rest ++ []) := by
      rwa [List.append_nil]
    cases ht : p.token? lexeme with
    | none =>
      rw [tokensOf_cons_none (p := ⟨p, lexeme⟩) ht]
      exact .skip hcut ht ih
    | some t =>
      rw [tokensOf_cons_some (p := ⟨p, lexeme⟩) ht]
      exact .token hcut ht ih

/-- **The scan of two lines** is the scan of the first one, and then that of the second one, moved
behind the line break. -/
theorem scan_nextLine {a : String} (h : tokenize a = .ok ts) (b : String) :
    scan (a ++ "\n" ++ b) = (scan a).andThen ((scan b).moved (a.utf8ByteSize + 1)) := by
  have htext : (a ++ "\n" ++ b).toList = a.toList ++ '\n' :: b.toList := by simp
  rw [scan, htext, (cutsOff_of_lexed ((lexed_iff 0).mpr h)).scanFrom_append (endsLine_cons _),
    scanFrom_blank (by decide), Nat.add_assoc, scanFrom_add, byteLength_toList]
  rfl

/-- **The tokens of two lines.** If the first of two lines has tokens up to its end, those of the
second one stand behind them, and a fault in the second one is one of both, as many bytes later as
there are in the first one and the line break. Asked again and again, a lexer of both lines answers
the tokens of the first one and then what a lexer of the second one does, as many bytes later. -/
theorem tokenize_nextLine {a : String} (h : tokenize a = .ok ts) (b : String) :
    (∀ us, tokenize b = .ok us → tokenize (a ++ "\n" ++ b) = .ok (ts ++ us)) ∧
    (∀ e, tokenize b = .error e →
      tokenize (a ++ "\n" ++ b) = .error (e.moved (a.utf8ByteSize + 1))) ∧
    ∀ n, (Lexer.ofInput (a ++ "\n" ++ b)).answers (ts.length + n) =
      (Lexer.ofInput a).answers ts.length ++
        ((Lexer.ofInput b).answers n).map (Lexer.moveAnswer (a.utf8ByteSize + 1)) := by
  have htokens : tokenize (a ++ "\n" ++ b) =
      ((tokenize b).mapError (LexError.moved (a.utf8ByteSize + 1))).map (ts ++ ·) := by
    rw [tokenize, scan_nextLine h, Scan.tokens_andThen h, Scan.tokens_moved, tokenize]
  refine ⟨fun us hus => ?_, fun e he => ?_, fun n => ?_⟩
  · rw [htokens, hus]
    rfl
  · rw [htokens, he]
    rfl
  · simp only [Lexer.answers_eq, Lexer.ofInput]
    rw [scan_nextLine h, Scan.answers_andThen h, Scan.answers_moved]

/-- A comment ends with its line, and a bar is not doubled by one in the next line. -/
theorem tokenize_nextLine_bars :
    tokenize "a | // é |" = .ok [.identifier "a", .bar] ∧
    (tokenize "|\x27é\x27" = .ok [.bar, .quoted "é"] ∧
      tokenize ("a | // é |" ++ "\n" ++ "|\x27é\x27") =
        .ok ([.identifier "a", .bar] ++ [.bar, .quoted "é"]) ∧
      (Lexer.ofInput ("a | // é |" ++ "\n" ++ "|\x27é\x27")).answers (2 + 3) =
        [(.ok (.identifier "a"), 0), (.ok .bar, 2), (.ok .bar, 12), (.ok (.quoted "é"), 13),
          (.ok .endOfInput, 17)]) ∧
    tokenize "\x27é" = .error ⟨0, '\x27'⟩ ∧
      tokenize ("a | // é |" ++ "\n" ++ "\x27é") = .error ⟨12, '\x27'⟩ := by
  have ha : tokenize "a | // é |" = .ok [.identifier "a", .bar] := by decide +kernel
  have hb : tokenize "|\x27é\x27" = .ok [.bar, .quoted "é"] := by decide +kernel
  have hfault : tokenize "\x27é" = .error ⟨0, '\x27'⟩ := by decide +kernel
  obtain ⟨htokens, -, hanswers⟩ := tokenize_nextLine ha "|\x27é\x27"
  obtain ⟨-, herror, -⟩ := tokenize_nextLine ha "\x27é"
  refine ⟨ha, ⟨hb, htokens _ hb, (hanswers 3).trans ?_⟩, hfault, (herror _ hfault).trans ?_⟩
  · decide +kernel
  · decide +kernel

end ValueGrammar
