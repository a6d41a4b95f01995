import ValueGrammar.Generator.Arrangement
import ValueGrammar.Generator.Basic
import ValueGrammar.Sample

/-!
# Cursors over generators

Model of the enumeration of `Generator` (`iter`, `Samples`) and of `Product` (`start`, `step`).

A cursor is a place in the enumeration of a generator: it hands out one sample after another and
then nothing, for ever. Options follow one another; a product turns like an odometer, its last part
fastest; orderings come lexicographically, selections by size and then lexicographically,
repetitions by their count. Nothing is computed before it is asked for, and cursors over one
generator are independent of each other.

An odometer has a dial for each part. A dial shows the sample last drawn from its part; when it runs
out it starts over and the dial before it moves on.

Out of scope: the memory that the cursors of a product take.

Headlines:
* **`next_eq`**: a cursor hands out the first of its remaining samples and keeps the others.
* **`toList_eq_remaining`**, **`take_eq_remaining`**: all the samples, and the first ones.
-/

namespace ValueGrammar

/-! ## Places -/

mutual

/-- A place in an enumeration. -/
inductive Cursor
  /-- Before a single text. -/
  | once (text : String)
  /-- After the last sample. -/
  | spent
  /-- In one cursor, with others to follow. -/
  | chained (front : Cursor) (upcoming : Unit → Queue)
  /-- Before the first sequence of a product. -/
  | fresh (parts : List Cursor)
  /-- At the sequence of a product that the dials show. -/
  | running (dials : Dials)
  /-- In one cursor, with a number of samples that may still be drawn from it. -/
  | limited (inner : Cursor) (left : Nat)

/-- Cursors that follow one another; each is made when its turn comes. -/
inductive Queue
  | nil
  | cons (head : Cursor) (tail : Unit → Queue)

/-- The dials of an odometer: where each starts over, where it stands, and what it shows. -/
inductive Dials
  | nil
  | cons (start cursor : Cursor) (shown : Sample) (rest : Dials)

end

/-- What turning the last dial does: a dial moves on, all dials start over, or one that has to start
over has nothing to show. -/
inductive Turn
  | advanced (dials : Dials)
  | carried (dials : Dials)
  | stuck

/-- The cursors for the items of a lazy list. -/
def Items.queue {α : Type} (items : Items α) (f : α → Cursor) : Queue :=
  match items with
  | .nil => .nil
  | .cons a rest => .cons (f a) fun _ => (rest ()).queue f

/-- The sequence that the dials show. -/
def Dials.shown : Dials → List Sample
  | .nil => []
  | .cons _ _ s rest => s :: rest.shown

namespace Cursor

/-! ## Moving on -/

mutual

/-- The next sample, if there is one, and the cursor after it. -/
def next : Cursor → Option Sample × Cursor
  | .once text => (some (.text text), .spent)
  | .spent => (none, .spent)
  | .chained front upcoming =>
    match front.next with
    | (some s, front) => (some s, .chained front upcoming)
    | (none, _) => nextAmong (upcoming ())
  | .fresh parts =>
    match begin? parts with
    | some dials => (some (.seq dials.shown), .running dials)
    | none => (none, .spent)
  | .running dials =>
    match turn dials with
    | .advanced dials => (some (.seq dials.shown), .running dials)
    | .carried _ | .stuck => (none, .spent)
  | .limited inner 0 => (none, .limited inner 0)
  | .limited inner (left + 1) =>
    match inner.next with
    | (answer, inner) => (answer, .limited inner left)

/-- The next sample of the first cursor that has one. -/
def nextAmong : Queue → Option Sample × Cursor
  | .nil => (none, .spent)
  | .cons c rest =>
    match c.next with
    | (some s, c) => (some s, .chained c rest)
    | (none, _) => nextAmong (rest ())

/-- The dials at the first sequence, from left to right; none if a part is empty. -/
def begin? : List Cursor → Option Dials
  | [] => some .nil
  | c :: cs =>
    match c.next with
    | (some s, d) => (begin? cs).map (.cons c d s)
    | (none, _) => none

/-- Turns the last dial, and each dial before one that starts over. -/
def turn : Dials → Turn
  | .nil => .carried .nil
  | .cons start cursor shown rest =>
    match turn rest with
    | .advanced rest => .advanced (.cons start cursor shown rest)
    | .carried rest =>
      match cursor.next with
      | (some s, cursor) => .advanced (.cons start cursor s rest)
      | (none, _) =>
        match start.next with
        | (some s, cursor) => .carried (.cons start cursor s rest)
        | (none, _) => .stuck
    | .stuck => .stuck

end

/-! ## The samples that remain -/

/-- The choices of one element from each list, the last list varying fastest. -/
def choices {α : Type} : List (List α) → List (List α)
  | [] => [[]]
  | part :: parts => part.flatMap fun a => (choices parts).map (a :: ·)

mutual

/-- The samples that a cursor has still to hand out. -/
def remaining : Cursor → List Sample
  | .once text => [.text text]
  | .spent => []
  | .chained front upcoming => front.remaining ++ remainingAmong (upcoming ())
  | .fresh parts => (choices (remainingEach parts)).map .seq
  | .running dials => (following dials).map .seq
  | .limited inner left => inner.remaining.take left

/-- The samples of the cursors in a queue, one cursor after another. -/
def remainingAmong : Queue → List Sample
  | .nil => []
  | .cons c rest => c.remaining ++ remainingAmong (rest ())

/-- The samples of each of several cursors. -/
def remainingEach : List Cursor → List (List Sample)
  | [] => []
  | c :: cs => c.remaining :: remainingEach cs

/-- The sequences after the one that the dials show. -/
def following : Dials → List (List Sample)
  | .nil => []
  | .cons _ cursor shown rest =>
    (following rest).map (shown :: ·) ++
      cursor.remaining.flatMap fun s => (choices (cycle rest)).map (s :: ·)

/-- The samples that each dial goes through. -/
def cycle : Dials → List (List Sample)
  | .nil => []
  | .cons start _ _ rest => start.remaining :: cycle rest

end

theorem remainingEach_eq_map : ∀ cs : List Cursor, remainingEach cs = cs.map remaining
  | [] => rfl
  | c :: cs => by rw [remainingEach, remainingEach_eq_map cs, List.map_cons]

theorem remainingAmong_queue {α : Type} (f : α → Cursor) : ∀ items : Items α,
    remainingAmong (items.queue f) = items.toList.flatMap fun a => (f a).remaining
  | .nil => rfl
  | .cons a rest => by
    rw [Items.queue, remainingAmong, remainingAmong_queue f (rest ()), Items.toList_cons,
      List.flatMap_cons]

/-! ## What an answer leaves -/

/-- An answer accounts for some samples: it is the first of them and leaves the others, or there
are none and none are left. -/
def Accounts (samples : List Sample) : Option Sample × Cursor → Prop
  | (some s, c) => samples = s :: c.remaining
  | (none, c) => samples = [] ∧ c.remaining = []

/-- A turn accounts for the sequences after the one that some dials show. When all dials start over,
they go through all the sequences again. -/
def Accounted (dials : Dials) : Turn → Prop
  | .advanced after => following dials = after.shown :: following after ∧ cycle after = cycle dials
  | .carried after => following dials = [] ∧
      choices (cycle dials) = after.shown :: following after ∧ cycle after = cycle dials
  | .stuck => following dials = [] ∧ choices (cycle dials) = []

mutual

theorem accounts_next : ∀ c : Cursor, Accounts c.remaining c.next
  | .once text => rfl
  | .spent => ⟨rfl, rfl⟩
  | .chained front upcoming => by
    have hf := accounts_next front
    have hu := accounts_nextAmong (upcoming ())
    rw [next, remaining]
    cases h : front.next with
    | mk answer after =>
      rw [h] at hf
      cases answer with
      | some s =>
        simp only [Accounts] at hf ⊢
        rw [hf, remaining, List.cons_append]
      | none =>
        rw [hf.1, List.nil_append]
        exact hu
  | .fresh parts => by
    rw [next, remaining]
    cases h : begin? parts with
    | some dials =>
      simp only [Accounts]
      rw [(begin?_eq_some h).1, remaining, List.map_cons]
    | none =>
      simp only [Accounts]
      rw [begin?_eq_none h, remaining]
      exact ⟨rfl, rfl⟩
  | .running dials => by
    have ht := accounted_turn dials
    rw [next, remaining]
    cases h : turn dials with
    | advanced after =>
      rw [h] at ht
      simp only [Accounts]
      rw [ht.1, remaining, List.map_cons]
    | carried after =>
      rw [h] at ht
      simp only [Accounts]
      rw [ht.1, remaining]
      exact ⟨rfl, rfl⟩
    | stuck =>
      rw [h] at ht
      simp only [Accounts]
      rw [ht.1, remaining]
      exact ⟨rfl, rfl⟩
  | .limited inner 0 => ⟨rfl, rfl⟩
  | .limited inner (left + 1) => by
    have hi := accounts_next inner
    rw [next, remaining]
    cases h : inner.next with
    | mk answer after =>
      rw [h] at hi
      cases answer with
      | some s =>
        simp only [Accounts] at hi ⊢
        rw [hi, remaining, List.take_succ_cons]
      | none =>
        simp only [Accounts] at hi ⊢
        rw [hi.1, remaining, hi.2]
        simp

theorem accounts_nextAmong : ∀ q : Queue, Accounts (remainingAmong q) (nextAmong q)
  | .nil => ⟨rfl, rfl⟩
  | .cons c rest => by
    have hc := accounts_next c
    have hr := accounts_nextAmong (rest ())
    rw [nextAmong, remainingAmong]
    cases h : c.next with
    | mk answer after =>
      rw [h] at hc
      cases answer with
      | some s =>
        simp only [Accounts] at hc ⊢
        rw [hc, remaining, List.cons_append]
      | none =>
        rw [hc.1, List.nil_append]
        exact hr

theorem begin?_eq_some : ∀ {parts : List Cursor} {dials : Dials}, begin? parts = some dials →
    choices (remainingEach parts) = dials.shown :: following dials ∧
      cycle dials = remainingEach parts
  | [], _, h => by cases h; exact ⟨rfl, rfl⟩
  | c :: cs, _, h => by
    have hc := accounts_next c
    rw [begin?] at h
    cases hn : c.next with
    | mk answer after =>
      rw [hn] at h hc
      cases answer with
      | some s =>
        obtain ⟨rest, hr, rfl⟩ := Option.map_eq_some_iff.mp h
        obtain ⟨h1, h2⟩ := begin?_eq_some hr
        simp only [Accounts] at hc
        simp only [remainingEach, choices, Dials.shown, following, cycle, hc, h1, h2,
          List.flatMap_cons, List.map_cons, List.cons_append]
        exact ⟨trivial, trivial⟩
      | none => cases h

theorem begin?_eq_none : ∀ {parts : List Cursor}, begin? parts = none →
    choices (remainingEach parts) = []
  | [], h => by cases h
  | c :: cs, h => by
    have hc := accounts_next c
    rw [begin?] at h
    rw [remainingEach, choices]
    cases hn : c.next with
    | mk answer after =>
      rw [hn] at h hc
      cases answer with
      | some s =>
        rw [begin?_eq_none (Option.map_eq_none_iff.mp h)]
        simp
      | none => rw [hc.1, List.flatMap_nil]

theorem accounted_turn : ∀ dials : Dials, Accounted dials (turn dials)
  | .nil => ⟨rfl, rfl, rfl⟩
  | .cons start cursor shown rest => by
    have hr := accounted_turn rest
    have hc := accounts_next cursor
    have hs := accounts_next start
    rw [turn]
    cases h : turn rest with
    | advanced after =>
      rw [h] at hr
      refine ⟨?_, ?_⟩
      · simp only [following, Dials.shown, hr.1, hr.2, List.map_cons, List.cons_append]
      · simp only [cycle, hr.2]
    | stuck =>
      rw [h] at hr
      refine ⟨?_, ?_⟩
      · simp [following, hr.1, hr.2]
      · simp [cycle, choices, hr.2]
    | carried after =>
      rw [h] at hr
      obtain ⟨hf, hch, hcy⟩ := hr
      cases hn : cursor.next with
      | mk answer moved =>
        rw [hn] at hc
        cases answer with
        | some s =>
          simp only [Accounts] at hc
          refine ⟨?_, ?_⟩
          · simp only [following, Dials.shown, hf, hc, hch, hcy, List.map_nil, List.nil_append,
              List.flatMap_cons, List.map_cons, List.cons_append]
          · simp only [cycle, hcy]
        | none =>
          cases hn' : start.next with
          | mk answer' moved' =>
            rw [hn'] at hs
            cases answer' with
            | some s =>
              simp only [Accounts] at hs
              refine ⟨?_, ?_, ?_⟩
              · simp only [following, hf, hc.1, List.map_nil, List.flatMap_nil, List.append_nil]
              · simp only [cycle, choices, following, Dials.shown, hs, hch, hcy,
                  List.flatMap_cons, List.map_cons, List.cons_append]
              · simp only [cycle, hcy]
            | none =>
              refine ⟨?_, ?_⟩
              · simp only [following, hf, hc.1, List.map_nil, List.flatMap_nil, List.append_nil]
              · simp only [cycle, choices, hs.1, List.flatMap_nil]

end

/-- A cursor hands out the first of its remaining samples and keeps the others. -/
theorem next_eq (c : Cursor) :
    c.next.1 = c.remaining.head? ∧ c.next.2.remaining = c.remaining.tail := by
  have h := accounts_next c
  cases hn : c.next with
  | mk answer after =>
    rw [hn] at h
    cases answer with
    | some s =>
      simp only [Accounts] at h
      rw [h]
      exact ⟨rfl, rfl⟩
    | none =>
      rw [h.1]
      exact ⟨rfl, h.2⟩

theorem length_remaining_lt {c after : Cursor} {s : Sample} (h : c.next = (some s, after)) :
    after.remaining.length < c.remaining.length := by
  have ha := accounts_next c
  rw [h] at ha
  simp only [Accounts] at ha
  rw [ha, List.length_cons]
  exact Nat.lt_succ_self _

/-! ## Drawing samples -/

/-- The samples seen, latest first, and then all that remain. -/
def drain (c : Cursor) (seen : List Sample) : List Sample :=
  match _h : c.next with
  | (some s, after) => after.drain (s :: seen)
  | (none, _) => seen.reverse
termination_by c.remaining.length
decreasing_by exact length_remaining_lt _h

/-- The samples seen, latest first, and then those that remain, at most `n` of them. -/
def draw : Nat → Cursor → List Sample → List Sample
  | 0, _, seen => seen.reverse
  | n + 1, c, seen =>
    match c.next with
    | (some s, after) => draw n after (s :: seen)
    | (none, _) => seen.reverse

/-- All the samples. -/
def toList (c : Cursor) : List Sample := c.drain []

/-- The next samples, at most `n` of them. -/
def take (n : Nat) (c : Cursor) : List Sample := draw n c []

theorem drain_eq (c : Cursor) (seen : List Sample) :
    c.drain seen = seen.reverse ++ c.remaining := by
  have h := accounts_next c
  rw [drain]
  split
  · next s after hn =>
    rw [hn] at h
    simp only [Accounts] at h
    rw [drain_eq after, h, List.reverse_cons, List.append_assoc, List.singleton_append]
  · next hn =>
    rw [hn] at h
    rw [h.1, List.append_nil]
termination_by c.remaining.length
decreasing_by exact length_remaining_lt (by assumption)

theorem draw_eq : ∀ (n : Nat) (c : Cursor) (seen : List Sample),
    draw n c seen = seen.reverse ++ c.remaining.take n
  | 0, _, seen => by rw [draw, List.take_zero, List.append_nil]
  | n + 1, c, seen => by
    have h := accounts_next c
    rw [draw]
    split
    · next s after hn =>
      rw [hn] at h
      simp only [Accounts] at h
      rw [draw_eq n after, h, List.reverse_cons, List.append_assoc, List.singleton_append,
        List.take_succ_cons]
    · next hn =>
      rw [hn] at h
      rw [h.1, List.take_nil, List.append_nil]

/-- All the samples are those that remain. -/
@[simp] theorem toList_eq_remaining (c : Cursor) : c.toList = c.remaining := by
  rw [toList, drain_eq, List.reverse_nil, List.nil_append]

/-- The next samples are the first of those that remain. -/
@[simp] theorem take_eq_remaining (n : Nat) (c : Cursor) : c.take n = c.remaining.take n := by
  rw [take, draw_eq, List.reverse_nil, List.nil_append]

/-! ## Cursors of generators -/

mutual

/-- A cursor before the first sample of a generator. -/
def ofGenerator : Generator → Cursor
  | .literal text => .once text
  | .choice options => .chained .spent fun _ => queueOf options
  | .subset parts => .chained .spent fun _ =>
    let starts := ofGenerators parts
    (Arrangement.selections parts.length).queue fun selection =>
      .fresh (Arrangement.pick starts selection)
  | .permutation parts => .chained .spent fun _ =>
    let starts := ofGenerators parts
    (Arrangement.orderings parts.length).queue fun ordering =>
      .fresh (Arrangement.pick starts ordering)
  | .cross parts => .fresh (ofGenerators parts)
  | .repeated inner least most => .chained .spent fun _ =>
    let start := ofGenerator inner
    (Items.range least.toNat (most.toNat + 1 - least.toNat)).queue fun count =>
      .fresh (List.replicate count start)
  | .limited inner count => .limited (ofGenerator inner) count.toNat

/-- Cursors before the first sample of each of several generators. -/
def ofGenerators : List Generator → List Cursor
  | [] => []
  | g :: gs => ofGenerator g :: ofGenerators gs

/-- The same, one after another. -/
def queueOf : List Generator → Queue
  | [] => .nil
  | g :: gs => .cons (ofGenerator g) fun _ => queueOf gs

end

theorem ofGenerators_eq_map : ∀ gs : List Generator, ofGenerators gs = gs.map ofGenerator
  | [] => rfl
  | g :: gs => by rw [ofGenerators, ofGenerators_eq_map gs, List.map_cons]

theorem remainingAmong_queueOf : ∀ gs : List Generator,
    remainingAmong (queueOf gs) = gs.flatMap fun g => (ofGenerator g).remaining
  | [] => rfl
  | g :: gs => by
    rw [queueOf, remainingAmong, remainingAmong_queueOf gs, List.flatMap_cons]

end Cursor

end ValueGrammar
