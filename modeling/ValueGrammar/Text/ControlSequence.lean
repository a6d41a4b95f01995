/-!
# Control characters and control sequences

What the stream under the logger leaves out of a line of the log before it reaches a standard error
that is no terminal.

A control sequence tells a terminal what to do instead of showing something. It opens with the
escape character and ends as its kind says. `plain` leaves control sequences and control
characters out of a text; tabs, newlines, form feeds and carriage returns stay.

A blank inside a sequence stays too, and so does the text after it, up to the next control
character. There the sequence goes on, unless a character outside ASCII has ended it.

Out of scope: a terminal, where everything is let through.

Headlines:
* **`plain_sublist`**: nothing is added and nothing changes its place.
* **`isPlain_of_mem_plain`**: no control character is left but a blank one.
* **`plain_eq_self`**: a text without control characters is left as it is.
-/

namespace ValueGrammar.Text

/-! ## Characters -/

/-- Whether a character is a control character that lays a text out. -/
def isLayout (c : Char) : Bool := c = '\t' || c = '\n' || c = '\x0c' || c = '\r'

/-- Whether a character stands for itself outside control sequences. -/
def isPlain (c : Char) : Bool := isLayout c || (0x20 ≤ c.toNat && c ≠ '\x7f')

/-- Whether a character lies in an inclusive range of code points. -/
def isBetween (low high : Nat) (c : Char) : Bool := low ≤ c.toNat && c.toNat ≤ high

/-- Whether one of the bytes of a character is the one that ends a string of a terminal. -/
def holdsTerminator (c : Char) : Bool := (String.utf8EncodeChar c).contains 0x9C

/-! ## Places -/

/-- A place in a text with respect to its control sequences. -/
inductive Place
  /-- Outside of them. -/
  | ground
  /-- After the escape character. -/
  | escape
  /-- In a sequence of an escape character, intermediates and a final character. -/
  | intermediate
  /-- In a sequence with parameters. -/
  | parameters
  /-- In a command of the operating system. -/
  | command
  /-- At the start of a device control string. -/
  | device
  /-- Among the parameters of a device control string. -/
  | deviceParameters
  /-- Among the intermediates of a device control string. -/
  | deviceIntermediates
  /-- In a string that nothing shows. -/
  | string
  deriving DecidableEq

namespace Place

/-- The place after a character. The escape character opens a sequence everywhere, and cancel and
substitute end one everywhere. -/
def after (p : Place) (c : Char) : Place :=
  if c = '\x1b' then .escape
  else if c = '\x18' || c = '\x1a' then .ground
  else match p with
    | .ground => .ground
    | .escape =>
      if c = '[' then .parameters
      else if c = ']' then .command
      else if c = 'P' then .device
      else if c = 'X' || c = '^' || c = '_' then .string
      else if isBetween 0x20 0x2F c then .intermediate
      else if isBetween 0x30 0x7E c then .ground
      else .escape
    | .intermediate => if isBetween 0x30 0x7E c then .ground else .intermediate
    | .parameters => if isBetween 0x40 0x7E c then .ground else .parameters
    | .command => if c = '\x07' then .ground else .command
    | .device =>
      if isBetween 0x20 0x2F c then .deviceIntermediates
      else if isBetween 0x30 0x3F c then .deviceParameters
      else if isBetween 0x40 0x7E c then .string
      else .device
    | .deviceParameters =>
      if isBetween 0x20 0x2F c then .deviceIntermediates
      else if isBetween 0x3C 0x7E c then .string
      else .deviceParameters
    | .deviceIntermediates => if isBetween 0x30 0x7E c then .string else .deviceIntermediates
    | .string => if holdsTerminator c then .ground else .string

/-- Whether a character shows at a place. -/
def shows : Place → Char → Bool
  | .ground => isPlain
  | .escape | .intermediate | .parameters => isLayout
  | .command | .device | .deviceParameters | .deviceIntermediates | .string => fun _ => false

/-- The place at which a sequence goes on after a character that has been kept for following
another one. -/
def resume (p : Place) (c : Char) : Place := if c.toNat < 0x80 then p else .ground

/-- What shows at any place stands for itself. -/
theorem isPlain_of_shows {p : Place} {c : Char} (h : p.shows c = true) : isPlain c = true := by
  cases p <;> simp_all [shows, isPlain]

end Place

/-! ## Texts -/

/-- The characters that are kept from a place on; `kept` is whether the last one was. -/
def plainFrom (p : Place) (kept : Bool) : List Char → List Char
  | [] => []
  | c :: rest =>
    if kept && isPlain c then c :: plainFrom (p.resume c) true rest
    else if p.shows c then c :: plainFrom (p.after c) true rest
    else plainFrom (p.after c) false rest

/-- A text without its control sequences and without its control characters, except blanks. -/
def plain (s : String) : String := String.ofList (plainFrom .ground false s.toList)

theorem plainFrom_sublist (p : Place) (kept : Bool) (cs : List Char) :
    (plainFrom p kept cs).Sublist cs := by
  induction cs generalizing p kept with
  | nil => exact List.Sublist.slnil
  | cons c rest ih =>
    unfold plainFrom
    split
    · exact (ih _ _).cons_cons c
    · split
      · exact (ih _ _).cons_cons c
      · exact (ih _ _).cons c

theorem isPlain_of_mem_plainFrom {p : Place} {kept : Bool} {cs : List Char} {c : Char}
    (h : c ∈ plainFrom p kept cs) : isPlain c = true := by
  induction cs generalizing p kept with
  | nil => simp [plainFrom] at h
  | cons d rest ih =>
    unfold plainFrom at h
    split at h
    · next hd =>
      rcases List.mem_cons.1 h with rfl | h
      · exact (Bool.and_eq_true_iff.1 hd).2
      · exact ih h
    · split at h
      · next hd =>
        rcases List.mem_cons.1 h with rfl | h
        · exact Place.isPlain_of_shows hd
        · exact ih h
      · exact ih h

theorem plainFrom_kept_eq_self {p : Place} {cs : List Char} (h : ∀ c ∈ cs, isPlain c = true) :
    plainFrom p true cs = cs := by
  induction cs generalizing p with
  | nil => rfl
  | cons c rest ih =>
    obtain ⟨hc, hrest⟩ := List.forall_mem_cons.1 h
    simp [plainFrom, hc, ih hrest]

theorem plainFrom_ground_eq_self {cs : List Char} (h : ∀ c ∈ cs, isPlain c = true) :
    plainFrom .ground false cs = cs := by
  cases cs with
  | nil => rfl
  | cons c rest =>
    obtain ⟨hc, hrest⟩ := List.forall_mem_cons.1 h
    simp [plainFrom, Place.shows, hc, plainFrom_kept_eq_self hrest]

/-- Nothing is added and nothing changes its place. -/
theorem plain_sublist (s : String) : (plain s).toList.Sublist s.toList := by
  simpa [plain] using plainFrom_sublist .ground false s.toList

/-- No control character is left but a blank one. -/
theorem isPlain_of_mem_plain {s : String} {c : Char} (h : c ∈ (plain s).toList) :
    isPlain c = true :=
  isPlain_of_mem_plainFrom (by simpa [plain] using h)

/-- A text without control characters is left as it is. -/
theorem plain_eq_self {s : String} (h : ∀ c ∈ s.toList, isPlain c = true) : plain s = s := by
  simp [plain, plainFrom_ground_eq_self h]

/-- A second pass leaves nothing more out. -/
theorem plain_plain (s : String) : plain (plain s) = plain s :=
  plain_eq_self fun _ h => isPlain_of_mem_plain h

end ValueGrammar.Text
