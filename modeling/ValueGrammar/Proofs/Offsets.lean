import ValueGrammar.Proofs.Scanning

/-!
# The offsets of a scan

The tokens of a scan lie one behind another, each with at least one byte, and the scan ends behind
all of them: at the end of the input, or in front of the character at which it fails.

Headlines:
* **`between_scanFrom`**: the offsets of a scan ascend strictly, within the bytes of its text.
* **`offers_unique`**: at most one token is offered at an offset.
* **`offers_endOfInput_iff`**: at the byte length of the text, and only there, it is the end.
* **`lt_of_offers`**: in front of a fault, all tokens lie before it.
-/

namespace ValueGrammar

/-! ## Bytes -/

theorem byteLength_append (cs ds : List Char) :
    byteLength (cs ++ ds) = byteLength cs + byteLength ds := by
  induction cs with
  | nil => rw [List.nil_append, byteLength, Nat.zero_add]
  | cons c cs ih => rw [List.cons_append, byteLength, byteLength, ih, Nat.add_assoc]

theorem byteLength_pos {cs : List Char} (h : cs ≠ []) : 0 < byteLength cs := by
  obtain ⟨c, cs, rfl⟩ := List.exists_cons_of_ne_nil h
  rw [byteLength]
  exact Nat.add_pos_left c.utf8Size_pos _

theorem byteLength_toList (s : String) : byteLength s.toList = s.utf8ByteSize := by
  have hbytes : ∀ cs : List Char, byteLength cs = (String.ofList cs).utf8ByteSize := by
    intro cs
    induction cs with
    | nil => rw [byteLength, String.ofList_nil, String.utf8ByteSize_empty]
    | cons c cs ih =>
      rw [byteLength, ih, ← List.singleton_append, String.ofList_append,
        String.utf8ByteSize_append, ← String.singleton_eq_ofList, String.utf8ByteSize_singleton]
  rw [hbytes, String.ofList_toList]

namespace Scan

/-! ## Offsets within bounds -/

/-- **The offsets of a scan ascend**, from `start` on and up to `stop`, where it finishes; a fault
lies before. -/
def Between (start stop : Nat) : Scan → Prop
  | .token _ offset rest => start ≤ offset ∧ offset < stop ∧ rest.Between (offset + 1) stop
  | .finished length => start ≤ length ∧ length = stop
  | .fault e => start ≤ e.offset ∧ e.offset < stop

/-- A scan offers a token at an offset, and where it finishes, the end of the input. -/
def Offers (t : Token) (offset : Nat) : Scan → Prop
  | .token t' offset' rest => (t = t' ∧ offset = offset') ∨ rest.Offers t offset
  | .finished length => t = .endOfInput ∧ offset = length
  | .fault _ => False

variable {s : Scan} {start stop offset : Nat} {t t' : Token} {e : LexError}

theorem Between.mono {start' : Nat} (h : s.Between start stop) (hle : start' ≤ start) :
    s.Between start' stop := by
  cases s with
  | token t offset rest => exact ⟨Nat.le_trans hle h.1, h.2⟩
  | finished length => exact ⟨Nat.le_trans hle h.1, h.2⟩
  | fault e => exact ⟨Nat.le_trans hle h.1, h.2⟩

theorem le_of_offers (h : s.Between start stop) (ho : s.Offers t offset) : start ≤ offset := by
  induction s generalizing start with
  | token t' offset' rest ih =>
    rcases ho with ⟨-, rfl⟩ | ho
    · exact h.1
    · exact Nat.le_trans h.1 (Nat.le_of_succ_le (ih h.2.2 ho))
  | finished length => exact ho.2 ▸ h.1
  | fault e => exact ho.elim

/-- At most one token is offered at an offset. -/
theorem offers_unique (h : s.Between start stop) (ho : s.Offers t offset)
    (ho' : s.Offers t' offset) : t = t' := by
  induction s generalizing start with
  | token u offset' rest ih =>
    -- what is offered later has a greater offset than the token in front
    rcases ho with ⟨rfl, rfl⟩ | ho <;> rcases ho' with ⟨rfl, hoffset⟩ | ho'
    · rfl
    · exact absurd (le_of_offers h.2.2 ho') (Nat.not_succ_le_self _)
    · exact absurd (le_of_offers h.2.2 (hoffset ▸ ho)) (Nat.not_succ_le_self _)
    · exact ih h.2.2 ho ho'
  | finished length => exact ho.1.trans ho'.1.symm
  | fault e => exact ho.elim

/-- The end of the input is offered where the scan finishes, and nothing else is offered there. -/
theorem offers_endOfInput_iff (h : s.Between start stop) (hall : s.All (· ≠ .endOfInput))
    (ho : s.Offers t offset) : t = .endOfInput ↔ offset = stop := by
  induction s generalizing start with
  | token u offset' rest ih =>
    rcases ho with ⟨rfl, rfl⟩ | ho
    · exact ⟨fun ht => absurd ht hall.1, fun hstop => absurd hstop (Nat.ne_of_lt h.2.1)⟩
    · exact ih h.2.2 hall.2 ho
  | finished length => exact ⟨fun _ => ho.2.trans h.2, fun _ => ho.1⟩
  | fault e => exact ho.elim

theorem tokens_eq_error_of_token {rest : Scan} (h : (token t offset rest).tokens = .error e) :
    rest.tokens = .error e := by
  cases hr : rest.tokens with
  | ok ts =>
    rw [tokens, hr] at h
    cases h
  | error e' =>
    rw [tokens, hr] at h
    cases h
    rfl

theorem le_of_tokens_eq_error (h : s.Between start stop) (he : s.tokens = .error e) :
    start ≤ e.offset := by
  induction s generalizing start with
  | token t offset rest ih =>
    exact Nat.le_trans h.1 (Nat.le_of_succ_le (ih h.2.2 (tokens_eq_error_of_token he)))
  | finished length => cases he
  | fault e' => cases he; exact h.1

/-- What is offered in front of a fault has a smaller offset. -/
theorem lt_of_offers (h : s.Between start stop) (he : s.tokens = .error e)
    (ho : s.Offers t offset) : offset < e.offset := by
  induction s generalizing start with
  | token u offset' rest ih =>
    have hrest := tokens_eq_error_of_token he
    rcases ho with ⟨rfl, rfl⟩ | ho
    · exact le_of_tokens_eq_error h.2.2 hrest
    · exact ih h.2.2 hrest ho
  | finished length => cases he
  | fault e' => exact ho.elim

end Scan

/-- **The offsets of a scan ascend strictly**, within the bytes of its text. -/
theorem between_scanFrom (offset : Nat) (cs : List Char) :
    (scanFrom offset cs).Between offset (offset + byteLength cs) := by
  fun_induction scanFrom offset cs with
  | case1 offset => exact ⟨Nat.le_refl _, rfl⟩
  | case2 offset c cs => exact ⟨Nat.le_refl _, Nat.lt_add_of_pos_right (byteLength_pos (by simp))⟩
  | case3 offset c cs p lexeme rest hf ht ih =>
    rw [← Pattern.append_of_split? (Pattern.split?_of_first? hf), byteLength_append,
      ← Nat.add_assoc]
    exact ih.mono (Nat.le_add_right _ _)
  | case4 offset c cs p lexeme rest hf t ht ih =>
    have hpos := byteLength_pos (Pattern.ne_nil_of_split? (Pattern.split?_of_first? hf))
    rw [← Pattern.append_of_split? (Pattern.split?_of_first? hf), byteLength_append,
      ← Nat.add_assoc]
    exact ⟨Nat.le_refl _, by omega, ih.mono (by omega)⟩

/-- The offsets of an input ascend strictly up to its byte length. -/
theorem between_scan (input : String) : (scan input).Between 0 input.utf8ByteSize := by
  have h := between_scanFrom 0 input.toList
  rwa [Nat.zero_add, byteLength_toList] at h

end ValueGrammar
