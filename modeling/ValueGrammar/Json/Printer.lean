import ValueGrammar.Json.Basic

/-!
# Writing JSON

The compact and the pretty layout of `execute_parse` and `execute_symbols`.

One writer serves both layouts. It puts the text of a value in front of a text that follows, so
that what is written reads `write l n v rest = write l n v [] ++ rest`.

Only the quote, the backslash and the control characters below U+0020 are escaped.

Headlines:
* **`write_append`**: what follows a value does not change how it is written.
-/

namespace ValueGrammar.Json

/-- Where line breaks and spaces go: `gap n` stands before each item at depth `n`. -/
structure Layout where
  gap : Nat → List Char
  colon : List Char

/-- No spaces at all. -/
def Layout.compact : Layout := ⟨fun _ => [], [':']⟩

/-- One item a line, two spaces for each level. -/
def Layout.pretty : Layout := ⟨fun n => '\n' :: List.replicate (2 * n) ' ', [':', ' ']⟩

/-! ## Texts -/

/-- The letter that stands after a backslash for a character with a short escape. -/
def shortEscape? (c : Char) : Option Char :=
  if c = '\x22' then some '\x22'
  else if c = '\x5c' then some '\x5c'
  else if c = '\x08' then some 'b'
  else if c = '\t' then some 't'
  else if c = '\n' then some 'n'
  else if c = '\x0c' then some 'f'
  else if c = '\r' then some 'r'
  else none

/-- How a character is written inside quotes. -/
def escape (c : Char) : List Char :=
  match shortEscape? c with
  | some e => ['\x5c', e]
  | none =>
    if c.toNat < 0x20 then
      ['\x5c', 'u', '0', '0', Nat.digitChar (c.toNat / 16), Nat.digitChar (c.toNat % 16)]
    else [c]

/-- A text in quotes, before what follows it. -/
def quote (cs rest : List Char) : List Char :=
  '\x22' :: cs.flatMap escape ++ '\x22' :: rest

/-! ## Values -/

mutual

/-- A value at depth `level`, before what follows it. -/
def write (layout : Layout) (level : Nat) : Json → List Char → List Char
  | .null, rest => "null".toList ++ rest
  | .bool true, rest => "true".toList ++ rest
  | .bool false, rest => "false".toList ++ rest
  | .natural n, rest => Nat.toDigits 10 n ++ rest
  | .decimal spelling, rest => spelling.toList ++ rest
  | .string text, rest => quote text.toList rest
  | .array [], rest => '[' :: ']' :: rest
  | .array (v :: vs), rest =>
    '[' :: (layout.gap (level + 1) ++ write layout (level + 1) v
      (writeItems layout (level + 1) vs (layout.gap level ++ ']' :: rest)))
  | .object [], rest => '\x7b' :: '\x7d' :: rest
  | .object ((k, v) :: ms), rest =>
    '\x7b' :: (layout.gap (level + 1) ++ quote k.toList (layout.colon ++
      write layout (level + 1) v
        (writeMembers layout (level + 1) ms (layout.gap level ++ '\x7d' :: rest))))

/-- The items after the first, each after a comma. -/
def writeItems (layout : Layout) (level : Nat) : List Json → List Char → List Char
  | [], rest => rest
  | v :: vs, rest =>
    ',' :: (layout.gap level ++ write layout level v (writeItems layout level vs rest))

/-- The members after the first, each after a comma. -/
def writeMembers (layout : Layout) (level : Nat) : List (String × Json) → List Char → List Char
  | [], rest => rest
  | (k, v) :: ms, rest =>
    ',' :: (layout.gap level ++ quote k.toList (layout.colon ++
      write layout level v (writeMembers layout level ms rest)))

end

/-- The text of a value in a layout. -/
def render (layout : Layout) (v : Json) : String := String.ofList (write layout 0 v [])

theorem quote_append (cs rest : List Char) : quote cs rest = quote cs [] ++ rest := by
  simp [quote]

mutual

/-- What follows a value does not change how it is written. -/
theorem write_append (layout : Layout) : ∀ (v : Json) (level : Nat) (rest : List Char),
    write layout level v rest = write layout level v [] ++ rest
  | .null, _, _ => by simp [write]
  | .bool true, _, _ => by simp [write]
  | .bool false, _, _ => by simp [write]
  | .natural _, _, _ => by simp [write]
  | .decimal _, _, _ => by simp [write]
  | .string _, _, rest => by rw [write, write, quote_append]
  | .array [], _, _ => by simp [write]
  | .array (v :: vs), level, rest => by
    rw [write, write, write_append layout v, writeItems_append layout vs,
      write_append layout v _ (writeItems _ _ _ _), writeItems_append layout vs _ (_ ++ [_])]
    simp
  | .object [], _, _ => by simp [write]
  | .object ((k, v) :: ms), level, rest => by
    rw [write, write, quote_append, write_append layout v, writeMembers_append layout ms,
      quote_append k.toList (_ ++ write _ _ _ (writeMembers _ _ _ (_ ++ [_]))),
      write_append layout v _ (writeMembers _ _ _ (_ ++ [_])),
      writeMembers_append layout ms _ (_ ++ [_])]
    simp

theorem writeItems_append (layout : Layout) : ∀ (vs : List Json) (level : Nat) (rest : List Char),
    writeItems layout level vs rest = writeItems layout level vs [] ++ rest
  | [], _, _ => by simp [writeItems]
  | v :: vs, level, rest => by
    rw [writeItems, writeItems, write_append layout v, writeItems_append layout vs,
      write_append layout v _ (writeItems _ _ _ [])]
    simp

theorem writeMembers_append (layout : Layout) :
    ∀ (ms : List (String × Json)) (level : Nat) (rest : List Char),
      writeMembers layout level ms rest = writeMembers layout level ms [] ++ rest
  | [], _, _ => by simp [writeMembers]
  | (k, v) :: ms, level, rest => by
    rw [writeMembers, writeMembers, quote_append, write_append layout v,
      writeMembers_append layout ms, quote_append k.toList (_ ++ write _ _ _ (writeMembers _ _ _ [])),
      write_append layout v _ (writeMembers _ _ _ [])]
    simp

end

end ValueGrammar.Json
