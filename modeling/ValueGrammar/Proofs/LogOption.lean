import Mathlib.Data.List.Basic
import Mathlib.Data.List.TakeWhile
import ValueGrammar.Command.Run

/-!
# The option that sets the log

Which arguments set the log is up to the option parser. Of it is asked that it sets the log apart:
given at a place of its own, `--log` hands on its word with the command and does nothing else. That
is what parsers document for an option with a value that may stand anywhere. Nothing is asked about
the words with which arguments are refused.

The option parser of the program keeps to this. Its items for the arguments with the setting are
those without it and one more, and that item is no part of any command.

Headlines:
* **`OptionParser.SetsLogApart`**: what is asked of an option parser.
* **`options_waiting`**: only behind a word that awaits a value an option waits for one.
* **`items_insert`**: a setting at a place of its own is an item of its own, or not read.
* **`setsLogApart_read`**: the option parser of the program sets the log apart.
-/

namespace ValueGrammar

/-! ## Settings among the arguments -/

/-- A level word, in capitals or not. -/
def IsLevelWord (w : String) : Prop := w.toLower ∈ levelWords

instance (w : String) : Decidable (IsLevelWord w) :=
  inferInstanceAs (Decidable (w.toLower ∈ levelWords))

/-- The words that give a setting, or none. -/
inductive GivesLog : Option String → List String → Prop
  | unset : GivesLog none []
  | apart {w : String} (h : IsLevelWord w) : GivesLog (some w) ["--log", w]
  | attached {w : String} (h : IsLevelWord w) : GivesLog (some w) ["--log=" ++ w]

/-- Whether a word gives a setting, or says that one follows. -/
def SetsLog (word : String) : Prop := word = "--log" ∨ "--log=".toList <+: word.toList

instance (word : String) : Decidable (SetsLog word) :=
  inferInstanceAs (Decidable (word = "--log" ∨ "--log=".toList <+: word.toList))

/-- Whether the word behind this one is its value: an option that takes one, or letters of options
of which only the last one takes one. -/
def AwaitsValue (word : String) : Prop :=
  word ∈ ["--log", "--limit", "--repeat-limit", "--draw-limit", "--type"] ∨
    word.toList.head? = some '-' ∧ word.toList.getLast? ∈ [some 'l', some 't'] ∧
      ∀ c ∈ word.toList.tail.dropLast, c ∈ ['a', 'k', 'p', 'h', 'V']

instance (word : String) : Decidable (AwaitsValue word) :=
  inferInstanceAs (Decidable (_ ∨ _))

/-- The words that are names of commands. -/
def commandWords : List String := ["samples", "parse", "source", "symbols", "expand"]

/-- **A place for a setting** among arguments that hold none: where an option can stand, which is
before the options end, not behind a word that awaits a value, and not behind `help` in place of the
name of a command. -/
structure LogPlace (before after : List String) : Prop where
  notEnded : "--" ∉ before
  notAwaited : ∀ word ∈ before.getLast?, ¬ AwaitsValue word
  noQuestion : "help" ∉ before.takeWhile (· ∉ commandWords)
  unset : ∀ word ∈ (before ++ after).takeWhile (· ≠ "--"), ¬ SetsLog word

/-- **Two readings of which the second one has a setting** and the first one has none. Otherwise
they are the same, except for the message of a refusal. -/
inductive Reading.Sets (setting : Option String) : Reading → Reading → Prop
  | run (command : Command) : Sets setting (.run none command) (.run setting command)
  | shown (text : String) : Sets setting (.shown text) (.shown text)
  | refused (message message' : String) : Sets setting (.refused message) (.refused message')

theorem Reading.sets_self {setting : Option String} {r : Reading}
    (h : ∀ log command, r = .run log command → log = none ∧ setting = none) :
    Sets setting r r := by
  cases r with
  | run log command =>
    obtain ⟨rfl, rfl⟩ := h log command rfl
    exact .run command
  | shown text => exact .shown text
  | refused message => exact .refused message message

/-- **An option parser sets the log apart**: the words that give a setting at a place for one add it
to the reading, and change nothing else. -/
def OptionParser.SetsLogApart (parser : OptionParser) : Prop :=
  ∀ ⦃before after words : List String⦄ ⦃setting : Option String⦄, LogPlace before after →
    GivesLog setting words →
      Reading.Sets setting (parser (before ++ after)) (parser (before ++ words ++ after))

namespace Arguments

/-! ## Items -/

/-- The items with a setting are those without it and one more, unless something wrong ends both
before. -/
inductive Inserted (w : String) : List Item → List Item → Prop
  | unread {found : List Item} (h : .wrong ∈ found) : Inserted w found found
  | item (front rest : List Item) : Inserted w (front ++ rest) (front ++ .setting .log w :: rest)

theorem Inserted.append {w : String} {found found' : List Item} (h : Inserted w found found')
    (front : List Item) : Inserted w (front ++ found) (front ++ found') := by
  cases h with
  | unread h => exact .unread (List.mem_append_right front h)
  | item middle rest =>
    rw [← List.append_assoc, ← List.append_assoc]
    exact .item (front ++ middle) rest

theorem Inserted.cons {w : String} {found found' : List Item} (h : Inserted w found found')
    (item : Item) : Inserted w (item :: found) (item :: found') :=
  h.append [item]

theorem isOption_of_isLevelWord {w : String} (h : IsLevelWord w) : isOption w = false := by
  have hwords : ∀ s ∈ levelWords, s.toList.head? ≠ some '-' := by decide
  have hhead : w.toLower.toList.head? = w.toList.head?.map Char.toLower := by
    show (w.map Char.toLower).toList.head? = _
    rw [String.toList_map, List.head?_map]
  unfold isOption
  split
  · next c rest hw =>
    have hdash := hwords _ h
    rw [hhead, hw] at hdash
    exact absurd rfl hdash
  · rfl

/-- The items of arguments where options are read. -/
theorem items_cons (scope : Option CommandName) (a : String) (rest : List String) :
    items scope none false (a :: rest) =
      if isOption a = true then
        if a = "--" then items scope none true rest
        else if .wrong ∈ (options scope a).1 then (options scope a).1
        else (options scope a).1 ++ items scope (options scope a).2 false rest
      else
        match scope with
        | some _ => .operand a :: items scope none false rest
        | none =>
          if a = "help" then [if isTopic rest then .flag .help else .wrong]
          else
            match CommandName.words.lookup a with
            | some name => .command name :: items (some name) none false rest
            | none => [.wrong] := by
  rw [items.eq_def]
  simp only [and_true]
  rfl

/-- The items of arguments where an option waits for its value. -/
theorem items_cons_waiting (scope : Option CommandName) (option : OptionName) (ended : Bool)
    (a : String) (rest : List String) : items scope (some option) ended (a :: rest) =
      if isOption a then [.wrong] else .setting option a :: items scope none ended rest := rfl

variable {w : String} {before after words : List String}

/-- Where options are read, the words of a setting are an item of their own. -/
theorem items_setting (h : GivesLog (some w) words) (scope : Option CommandName) :
    items scope none false (words ++ after) = .setting .log w :: items scope none false after := by
  cases h with
  | apart h =>
    have hfirst : items scope none false ("--log" :: w :: after) =
        items scope (some .log) false (w :: after) := by
      cases scope with
      | none => rfl
      | some name => cases name <;> rfl
    show items scope none false ("--log" :: w :: after) = _
    rw [hfirst, items_cons_waiting, if_neg (by simp [isOption_of_isLevelWord h])]
  | attached h =>
    have hchars : ("--log=" ++ w).toList = '-' :: '-' :: 'l' :: 'o' :: 'g' :: '=' :: w.toList :=
      String.toList_append
    have hoption : isOption ("--log=" ++ w) = true := by simp only [isOption, hchars]
    have hne : "--log=" ++ w ≠ "--" := by
      intro heq
      have hlength := congrArg String.toList heq
      rw [hchars] at hlength
      simp at hlength
    have hfound : options scope ("--log=" ++ w) = ([.setting .log w], none) := by
      have hfirst : allowed scope = .log :: (allowed scope).tail := by
        cases scope with
        | none => rfl
        | some name => cases name <;> rfl
      have hword : word scope ('l' :: 'o' :: 'g' :: '=' :: w.toList) =
          ([.setting .log w], none) := by
        unfold word
        rw [hfirst]
        simp [OptionName.word, OptionName.takesValue]
      simp only [options, hchars]
      exact hword
    show items scope none false (("--log=" ++ w) :: after) = _
    rw [items_cons, if_pos hoption, if_neg hne, hfound, if_neg (by simp)]
    rfl

theorem exists_cons_of_isOption {a : String} (h : isOption a = true) :
    ∃ c rest, a.toList = '-' :: c :: rest := by
  unfold isOption at h
  split at h
  · next c rest hchars => exact ⟨c, rest, hchars⟩
  · cases h

theorem isOption_of_mem_commandWords {a : String} (h : a ∈ commandWords) : ¬ isOption a = true := by
  revert a
  decide

/-! ### Without settings -/

/-- A word with what is attached to it is the word of its option and what is attached. -/
theorem eq_word_append {scope : Option CommandName} {option : OptionName} {cs : List Char}
    (h : ((allowed scope).find? fun option =>
      option.word == String.ofList (cs.takeWhile (· ≠ '='))) = some option) :
    cs = option.word.toList ++ cs.dropWhile (· ≠ '=') := by
  have hname : option.word = String.ofList (cs.takeWhile (· ≠ '=')) := by
    simpa using List.find?_some h
  rw [hname, String.toList_ofList, List.takeWhile_append_dropWhile]

/-- No letter gives a setting. -/
theorem letters_noLog (scope : Option CommandName) (v : String) : ∀ cs : List Char,
    .setting .log v ∉ (letters scope cs).1 ∧ (letters scope cs).2 ≠ some .log
  | [] => ⟨List.not_mem_nil, Option.some_ne_none _ |>.symm⟩
  | c :: rest => by
    unfold letters
    split
    · exact ⟨by simp, by simp⟩
    · next option hfind =>
      have hlog : option ≠ .log := by
        rintro rfl
        exact absurd (List.find?_some hfind) (by simp [OptionName.letter?])
      split
      · split <;> simp [hlog, hlog.symm]
      · obtain ⟨hmem, hwaiting⟩ := letters_noLog scope v rest
        exact ⟨by simpa using hmem, hwaiting⟩

/-- No word but those of a setting gives one. -/
theorem options_noLog {a : String} (ha : ¬ SetsLog a) (scope : Option CommandName) (v : String) :
    .setting .log v ∉ (options scope a).1 ∧ (options scope a).2 ≠ some .log := by
  unfold options
  split
  · next cs hchars =>
    unfold word
    dsimp only
    split
    · exact ⟨by simp, by simp⟩
    · next option hfind =>
      have hlog : option ≠ .log := by
        rintro rfl
        have hcs : a.toList = "--log".toList ++ cs.dropWhile (· ≠ '=') :=
          hchars.trans (congrArg ('-' :: '-' :: ·) (eq_word_append hfind))
        cases hrest : cs.dropWhile (· ≠ '=') with
        | nil =>
          rw [hrest, List.append_nil] at hcs
          exact ha (.inl (String.toList_inj.mp hcs))
        | cons c value =>
          have hc := List.head?_dropWhile_not (· ≠ '=') cs
          rw [hrest] at hc hcs
          obtain rfl : c = '=' := by simpa using hc
          exact ha (.inr ⟨value, hcs.symm⟩)
      split <;> simp [hlog, hlog.symm]
  · exact letters_noLog scope v _

/-- The items of arguments behind the end of the options. -/
theorem items_cons_ended (scope : Option CommandName) (a : String) (rest : List String) :
    items scope none true (a :: rest) = match scope with
      | some _ => .operand a :: items scope none true rest
      | none => [.wrong] := by
  rw [items.eq_def]
  simp only [Bool.true_eq_false, and_false, if_false]
  rfl

/-- Behind the end of the options nothing gives a setting. -/
theorem items_noLog_ended (v : String) : ∀ {arguments : List String} {scope : Option CommandName},
    .setting .log v ∉ items scope none true arguments
  | [], scope => List.not_mem_nil
  | a :: rest, scope => by
    rw [items_cons_ended]
    cases scope with
    | some name =>
      have ih : .setting .log v ∉ items (some name) none true rest := items_noLog_ended v
      simp [ih]
    | none => simp

/-- **Arguments that give no setting have no items that are one.** -/
theorem items_noLog (v : String) : ∀ {arguments : List String} {scope : Option CommandName}
    {waiting : Option OptionName}, (∀ word ∈ arguments.takeWhile (· ≠ "--"), ¬ SetsLog word) →
      waiting ≠ some .log → .setting .log v ∉ items scope waiting false arguments
  | [], scope, waiting, _, _ => by
    rw [items.eq_def]
    cases waiting <;> simp
  | a :: rest, scope, waiting, h, hwaiting => by
    have hnone : (none : Option OptionName) ≠ some .log := nofun
    by_cases hend : a = "--"
    · -- behind an option that waits there is nothing, else the options end
      subst hend
      cases waiting with
      | some option => simp [items_cons_waiting, isOption]
      | none =>
        show .setting .log v ∉ items scope none true rest
        exact items_noLog_ended v
    · have htake : (a :: rest).takeWhile (· ≠ "--") = a :: rest.takeWhile (· ≠ "--") :=
        List.takeWhile_cons_of_pos (by simpa using hend)
      rw [htake] at h
      obtain ⟨ha, hrest⟩ := List.forall_mem_cons.mp h
      have ih {scope : Option CommandName} {waiting : Option OptionName}
          (hwaiting : waiting ≠ some .log) : .setting .log v ∉ items scope waiting false rest :=
        items_noLog v hrest hwaiting
      cases waiting with
      | some option =>
        rw [items_cons_waiting]
        split
        · simp
        · have hlog : option ≠ .log := fun heq => hwaiting (congrArg some heq)
          simp [hlog.symm, ih hnone]
      | none =>
        obtain ⟨hfound, hleft⟩ := options_noLog ha scope v
        rw [items_cons, if_neg hend]
        split
        · split
          · exact hfound
          · exact fun hmem => (List.mem_append.mp hmem).elim hfound (ih hleft)
        · cases scope with
          | some name => simp [ih hnone]
          | none =>
            dsimp only
            split
            · split <;> simp
            · cases CommandName.words.lookup a with
              | some name => simp [ih hnone]
              | none => simp

/-! ### Options that wait -/

/-- The letters of options that take a value, and those of flags. -/
theorem letter_mem {option : OptionName} {c : Char} (h : option.letter? = some c) :
    if option.takesValue then some c ∈ [some 'l', some 't'] else c ∈ ['a', 'k', 'p', 'h', 'V'] := by
  cases option with
  | limit | types | version | help | all | keepDuplicates | pretty =>
    cases h
    decide
  | log | repeatLimit | drawLimit => cases h

/-- An option that waits behind letters is that of the last one, and the letters before it are those
of flags. -/
theorem letters_waiting {scope : Option CommandName} {option : OptionName} : ∀ {cs : List Char},
    (letters scope cs).2 = some option → option ∈ allowed scope ∧ option.takesValue = true ∧
      cs.getLast? ∈ [some 'l', some 't'] ∧ ∀ c ∈ cs.dropLast, c ∈ ['a', 'k', 'p', 'h', 'V']
  | [], h => nomatch h
  | c :: rest, h => by
    unfold letters at h
    split at h
    · cases h
    · next found hfind =>
      have hletter : found.letter? = some c := by simpa using List.find?_some hfind
      have hmem := letter_mem hletter
      split at h
      · next hvalue =>
        rw [if_pos hvalue] at hmem
        split at h
        · cases h
          exact ⟨List.mem_of_find?_eq_some hfind, hvalue, hmem, List.forall_mem_nil _⟩
        · cases h
        · cases h
      · next hvalue =>
        rw [if_neg hvalue] at hmem
        obtain ⟨hallowed, htakes, hlast, hflags⟩ := letters_waiting h
        cases rest with
        | nil => cases h
        | cons d rest =>
          exact ⟨hallowed, htakes, hlast, List.forall_mem_cons.mpr ⟨hmem, hflags⟩⟩

/-- An option that waits behind a word is that of the word. -/
theorem word_waiting {scope : Option CommandName} {option : OptionName} {cs : List Char}
    (h : (word scope cs).2 = some option) :
    option ∈ allowed scope ∧ option.takesValue = true ∧ cs = option.word.toList := by
  unfold word at h
  dsimp only at h
  split at h
  · cases h
  · next found hfind =>
    split at h
    · next hvalue hattached =>
      cases h
      refine ⟨List.mem_of_find?_eq_some hfind, hvalue, ?_⟩
      have hcs := eq_word_append hfind
      rwa [hattached, List.append_nil] at hcs
    · cases h
    · cases h
    · cases h

/-- **Only behind a word that awaits a value an option waits for one.** -/
theorem options_waiting {scope : Option CommandName} {option : OptionName} {a : String}
    (hoption : isOption a = true) (h : (options scope a).2 = some option) :
    option ∈ allowed scope ∧ option.takesValue = true ∧ AwaitsValue a := by
  have hwords : ∀ option : OptionName, option.takesValue = true →
      "--" ++ option.word ∈ ["--log", "--limit", "--repeat-limit", "--draw-limit", "--type"] := by
    intro option
    cases option <;> decide
  obtain ⟨d, rest, hchars⟩ := exists_cons_of_isOption hoption
  by_cases hdash : d = '-'
  · subst hdash
    rw [options, hchars] at h
    obtain ⟨hallowed, hvalue, rfl⟩ := word_waiting h
    have ha : a = "--" ++ option.word := by
      rw [← String.toList_inj, hchars, String.toList_append]
      rfl
    exact ⟨hallowed, hvalue, .inl (ha ▸ hwords option hvalue)⟩
  · have hletters : options scope a = letters scope (d :: rest) := by
      rw [options, hchars]
      split
      · next hcs =>
        cases hcs
        exact absurd rfl hdash
      · next => rfl
    rw [hletters] at h
    obtain ⟨hallowed, hvalue, hlast, hflags⟩ := letters_waiting h
    refine ⟨hallowed, hvalue, .inr ?_⟩
    rw [hchars]
    exact ⟨rfl, hlast, hflags⟩

/-- Before the name of a command no option but the setting takes a value. -/
theorem eq_log_of_allowed {option : OptionName} (h : option ∈ allowed none)
    (hvalue : option.takesValue = true) : option = .log := by
  cases option with
  | log => rfl
  | _ => revert h hvalue; decide

/-! ### Insertion -/

/-- **What is still in front of a place for a setting**, when some of the arguments are read. -/
structure Ahead (scope : Option CommandName) (waiting : Option OptionName) (before : List String) :
    Prop where
  notEnded : "--" ∉ before
  notAwaited : ∀ word ∈ before.getLast?, ¬ AwaitsValue word
  unset : ∀ word ∈ before, ¬ SetsLog word
  unnamed : scope = none → waiting = none ∧ "help" ∉ before.takeWhile (· ∉ commandWords)
  ready : before = [] → waiting = none

namespace Ahead

variable {a : String} {scope : Option CommandName} {waiting : Option OptionName}

/-- No `help` stands behind a word that is no name of a command, nor is it that word. -/
theorem noQuestion (h : Ahead none waiting (a :: before)) (ha : a ∉ commandWords) :
    a ≠ "help" ∧ "help" ∉ before.takeWhile (· ∉ commandWords) := by
  have htake : (a :: before).takeWhile (· ∉ commandWords) =
      a :: before.takeWhile (· ∉ commandWords) := List.takeWhile_cons_of_pos (by simpa using ha)
  have hhelp := (h.unnamed rfl).2
  rw [htake] at hhelp
  exact ⟨(List.ne_of_not_mem_cons hhelp).symm, List.not_mem_of_not_mem_cons hhelp⟩

theorem ne_help (h : Ahead none waiting (a :: before)) : a ≠ "help" := by
  rintro rfl
  exact (h.noQuestion (by decide)).1 rfl

/-- Behind a word of a command, an operand or a value, nothing waits. -/
theorem behindWord (h : Ahead scope waiting (a :: before)) (name : CommandName) :
    Ahead (some name) none before where
  notEnded := List.not_mem_of_not_mem_cons h.notEnded
  notAwaited word hword := h.notAwaited word (List.mem_getLast?_cons hword)
  unset := (List.forall_mem_cons.mp h.unset).2
  unnamed := nofun
  ready _ := rfl

/-- Behind options nothing waits before the name of a command, where only a setting could, and at
the place, where the last word awaits no value. -/
theorem behindOptions (h : Ahead scope none (a :: before)) (hoption : isOption a = true) :
    Ahead scope (options scope a).2 before where
  notEnded := List.not_mem_of_not_mem_cons h.notEnded
  notAwaited word hword := h.notAwaited word (List.mem_getLast?_cons hword)
  unset := (List.forall_mem_cons.mp h.unset).2
  unnamed hscope := by
    subst hscope
    have hnot : a ∉ commandWords := fun hmem => isOption_of_mem_commandWords hmem hoption
    refine ⟨Option.eq_none_iff_forall_ne_some.mpr fun option hwaiting => ?_, (h.noQuestion hnot).2⟩
    obtain ⟨hallowed, hvalue, -⟩ := options_waiting hoption hwaiting
    rw [eq_log_of_allowed hallowed hvalue] at hwaiting
    exact (options_noLog (List.forall_mem_cons.mp h.unset).1 none "").2 hwaiting
  ready hnil := by
    subst hnil
    refine Option.eq_none_iff_forall_ne_some.mpr fun option hwaiting => ?_
    exact h.notAwaited a rfl (options_waiting hoption hwaiting).2.2

end Ahead

/-- **A setting at a place of its own is an item of its own**, or is not read. -/
theorem items_insert (h : GivesLog (some w) words) : ∀ {before : List String}
    {scope : Option CommandName} {waiting : Option OptionName}, Ahead scope waiting before →
      Inserted w (items scope waiting false (before ++ after))
        (items scope waiting false (before ++ words ++ after))
  | [], scope, waiting, hahead => by
    rw [hahead.ready rfl, List.nil_append, List.nil_append, items_setting h]
    exact .item [] _
  | a :: before, scope, waiting, hahead => by
    have hne : a ≠ "--" := (List.ne_of_not_mem_cons hahead.notEnded).symm
    rw [List.cons_append, List.cons_append, List.cons_append]
    cases waiting with
    | some option =>
      rw [items_cons_waiting, items_cons_waiting]
      split
      · exact .unread (List.mem_singleton_self _)
      · cases scope with
        | some name => exact (items_insert h (hahead.behindWord name)).cons _
        | none => exact nomatch (hahead.unnamed rfl).1
    | none =>
      rw [items_cons, items_cons]
      by_cases hoption : isOption a = true
      · rw [if_pos hoption, if_pos hoption, if_neg hne, if_neg hne]
        split
        · next hwrong => exact .unread hwrong
        · exact (items_insert h (hahead.behindOptions hoption)).append _
      · rw [if_neg hoption, if_neg hoption]
        cases scope with
        | some name => exact (items_insert h (hahead.behindWord name)).cons (.operand a)
        | none =>
          dsimp only
          rw [if_neg hahead.ne_help, if_neg hahead.ne_help]
          cases CommandName.words.lookup a with
          | some name => exact (items_insert h (hahead.behindWord name)).cons (.command name)
          | none => exact .unread (List.mem_singleton_self _)

/-! ## Readings -/

section Readings

variable {front rest found : List Item}

theorem settings_append (option : OptionName) (a b : List Item) :
    settings option (a ++ b) = settings option a ++ settings option b :=
  List.filterMap_append

theorem settings_eq_nil (h : ∀ v, .setting .log v ∉ found) : settings .log found = [] := by
  refine List.filterMap_eq_nil_iff.mpr fun item hitem => ?_
  cases item with
  | setting option value =>
    have hlog : option ≠ .log := by
      rintro rfl
      exact h value hitem
    simp [hlog]
  | flag option | command name | operand text | wrong => rfl

/-- A log setting is no part of a command. -/
theorem command?_insert (name : CommandName) (w : String) (front rest : List Item) :
    command? name (front ++ .setting .log w :: rest) = command? name (front ++ rest) := by
  have hoperands : operands (front ++ .setting .log w :: rest) = operands (front ++ rest) := by
    simp [operands]
  have hflag (option : OptionName) : flag? option (front ++ .setting .log w :: rest) =
      flag? option (front ++ rest) := by
    simp [flag?]
  have hsettings {option : OptionName} (h : OptionName.log ≠ option) :
      settings option (front ++ .setting .log w :: rest) = settings option (front ++ rest) := by
    simp [settings, h]
  have hlimit : OptionName.log ≠ .limit := by decide
  have hrepeat : OptionName.log ≠ .repeatLimit := by decide
  have hdraw : OptionName.log ≠ .drawLimit := by decide
  have htypes : OptionName.log ≠ .types := by decide
  unfold command? numberSetting?
  simp only [hoperands, hflag, hsettings hlimit, hsettings hrepeat, hsettings hdraw,
    hsettings htypes]

theorem noLog_append (h : ∀ v, .setting .log v ∉ front ++ rest) :
    (∀ v, .setting .log v ∉ front) ∧ ∀ v, .setting .log v ∉ rest :=
  ⟨fun v hv => h v (List.mem_append_left rest hv), fun v hv => h v (List.mem_append_right front hv)⟩

/-- Nothing behind an item that stops a search is looked at. -/
theorem span_stopped {p : Item → Bool} (h : ¬ ∀ item ∈ front, p item = true) (rest : List Item) :
    (front ++ rest).takeWhile p = front.takeWhile p ∧
      (front ++ rest).dropWhile p = front.dropWhile p ++ rest := by
  induction front with
  | nil => exact absurd (List.forall_mem_nil _) h
  | cons item front ih =>
    cases hitem : p item with
    | true =>
      have htail : ¬ ∀ item ∈ front, p item = true := fun hfront =>
        h (List.forall_mem_cons.mpr ⟨hitem, hfront⟩)
      simp [hitem, ih htail]
    | false => simp [hitem]

/-- The items of a command with a setting and without one are read alike. -/
theorem readOwn_sets {own own' : List Item} {outer inner setting : Option String} {help : Bool}
    (name : CommandName) (hwrong : .wrong ∈ own' ↔ .wrong ∈ own)
    (hcommand : command? name own' = command? name own) (hnone : settings .log own = [])
    (hinner : atMostOne (settings .log own') = some inner)
    (hsetting : help = false → inner.or outer = setting) :
    Reading.Sets setting (readOwn none name own help) (readOwn outer name own' help) := by
  unfold readOwn
  simp only [hwrong, hcommand, hnone, hinner]
  split
  · exact .refused _ _
  · cases command? name own with
    | none => exact .refused _ _
    | some found =>
      obtain ⟨command, compatible⟩ := found
      cases help with
      | true => exact .shown _
      | false =>
        cases compatible with
        | true =>
          obtain rfl := hsetting rfl
          exact .run command
        | false => exact .refused _ _

theorem settings_insert (h : ∀ v, .setting .log v ∉ front ++ rest) (w : String) :
    settings .log (front ++ .setting .log w :: rest) = [w] := by
  obtain ⟨hfront, hrest⟩ := noLog_append h
  rw [settings_append, settings_eq_nil hfront, List.nil_append]
  show w :: settings .log rest = [w]
  rw [settings_eq_nil hrest]

theorem wrong_mem_insert (w : String) :
    Item.wrong ∈ front ++ .setting .log w :: rest ↔ Item.wrong ∈ front ++ rest := by
  simp

/-- A setting behind the name of a command is handed on, unless it stands behind a question for
help. -/
theorem readBehind_insert (h : ∀ v, .setting .log v ∉ front ++ rest) (w : String)
    (name : CommandName) :
    Reading.Sets (some w) (readBehind none (.command name :: (front ++ rest)))
      (readBehind none (.command name :: (front ++ .setting .log w :: rest))) := by
  have hall : (front ++ .setting .log w :: rest).all Item.isNoHelp =
      (front ++ rest).all Item.isNoHelp := by
    simp [Item.isNoHelp]
  have hsub : ∀ v, .setting .log v ∉ (front ++ rest).takeWhile Item.isNoHelp := fun v hv =>
    h v ((List.takeWhile_sublist _).mem hv)
  rw [readBehind, readBehind, hall]
  by_cases hfront : ∀ item ∈ front, item.isNoHelp = true
  · rw [List.takeWhile_append_of_pos hfront] at hsub ⊢
    rw [List.takeWhile_append_of_pos hfront, List.takeWhile_cons_of_pos rfl]
    exact readOwn_sets name (wrong_mem_insert w) (command?_insert name w _ _)
      (settings_eq_nil hsub) (by rw [settings_insert hsub]; rfl) fun _ => rfl
  · have hasks : (!(front ++ rest).all Item.isNoHelp) = true := by
      rw [List.all_append, Bool.not_eq_true', Bool.and_eq_false_iff]
      exact .inl (Bool.eq_false_iff.mpr fun hall => hfront (List.all_eq_true.mp hall))
    have hsame : (front ++ .setting .log w :: rest).takeWhile Item.isNoHelp =
        (front ++ rest).takeWhile Item.isNoHelp :=
      (span_stopped hfront _).1.trans (span_stopped hfront rest).1.symm
    rw [hasks, hsame]
    exact readOwn_sets name Iff.rfl rfl (settings_eq_nil hsub)
      (by rw [settings_eq_nil hsub]; rfl) nofun

/-- Behind the general items there is nothing, a question for a text, or the name of a command. -/
theorem readBehind_outer (h : ∀ v, .setting .log v ∉ found) (w : String) :
    Reading.Sets (some w) (readBehind none found) (readBehind (some w) found) := by
  match found with
  | .command name :: rest =>
    have hrest : ∀ v, .setting .log v ∉ rest.takeWhile Item.isNoHelp := fun v hv =>
      h v (List.mem_cons_of_mem _ ((List.takeWhile_sublist _).mem hv))
    exact readOwn_sets name Iff.rfl rfl (settings_eq_nil hrest)
      (by rw [settings_eq_nil hrest]; rfl) fun _ => rfl
  | .flag option :: _ => exact .shown _
  | [] | .setting .. :: _ | .operand _ :: _ | .wrong :: _ => exact .refused _ _

/-- **A log setting among the items sets the log and does nothing else.** -/
theorem readItems_insert (h : ∀ v, .setting .log v ∉ front ++ rest) (w : String) :
    Reading.Sets (some w) (readItems (front ++ rest))
      (readItems (front ++ .setting .log w :: rest)) := by
  have htake : ∀ v, .setting .log v ∉ (front ++ rest).takeWhile Item.isGeneral := fun v hv =>
    h v ((List.takeWhile_sublist _).mem hv)
  have hdrop : ∀ v, .setting .log v ∉ (front ++ rest).dropWhile Item.isGeneral := fun v hv =>
    h v ((List.dropWhile_sublist _).mem hv)
  unfold readItems
  dsimp only
  by_cases hfront : ∀ item ∈ front, item.isGeneral = true
  · -- among the general items
    rw [List.takeWhile_append_of_pos hfront] at htake
    rw [List.dropWhile_append_of_pos hfront] at hdrop
    rw [List.takeWhile_append_of_pos hfront, List.takeWhile_append_of_pos hfront,
      List.takeWhile_cons_of_pos rfl, List.dropWhile_append_of_pos hfront,
      List.dropWhile_append_of_pos hfront, List.dropWhile_cons_of_pos rfl,
      settings_eq_nil htake, settings_insert htake]
    simp only [wrong_mem_insert, atMostOne]
    split
    · exact .refused _ _
    · exact readBehind_outer hdrop w
  · obtain ⟨htake', hdrop'⟩ := span_stopped hfront rest
    obtain ⟨htake'', hdrop''⟩ := span_stopped hfront (.setting .log w :: rest)
    rw [htake'] at htake
    rw [hdrop'] at hdrop
    rw [htake', htake'', hdrop', hdrop'', settings_eq_nil htake]
    simp only [atMostOne]
    split
    · exact .refused _ _
    · cases hbehind : front.dropWhile Item.isGeneral with
      | nil => exact absurd (List.dropWhile_eq_nil_iff.mp hbehind) hfront
      | cons stop behind =>
        rw [hbehind] at hdrop
        cases stop with
        | command name =>
          exact readBehind_insert (fun v hv => hdrop v (List.mem_cons_of_mem _ hv)) w name
        | flag option => exact .shown _
        | setting option value | operand text | wrong => exact .refused _ _

/-- What a command is read from holds nothing wrong and no question for help, and without a setting
there is none but that before its name. -/
theorem readOwn_eq_run {outer log : Option String} {name : CommandName} {help : Bool}
    {command : Command} (h : readOwn outer name found help = .run log command) :
    .wrong ∉ found ∧ help = false ∧ (settings .log found = [] → log = outer) := by
  unfold readOwn at h
  split at h
  · cases h
  · next hwrong =>
    refine ⟨hwrong, ?_⟩
    split at h
    · next inner found hinner _ =>
      split at h
      · cases h
      · next hhelp =>
        refine ⟨Bool.eq_false_iff.mpr hhelp, fun hnone => ?_⟩
        split at h
        · cases h
          rw [hnone] at hinner
          cases hinner
          rfl
        · cases h
    · cases h

/-- Items that are read as a command hold nothing wrong, and without a setting there is none. -/
theorem readItems_eq_run {log : Option String} {command : Command}
    (h : readItems found = .run log command) :
    .wrong ∉ found ∧ ((∀ v, .setting .log v ∉ found) → log = none) := by
  have hspan : found.takeWhile Item.isGeneral ++ found.dropWhile Item.isGeneral = found :=
    List.takeWhile_append_dropWhile
  unfold readItems at h
  dsimp only at h
  split at h
  · cases h
  · next hgeneral =>
    split at h
    · next outer houter =>
      unfold readBehind at h
      split at h
      · next name rest hbehind =>
        obtain ⟨hown, hhelp, hlog⟩ := readOwn_eq_run h
        rw [Bool.not_eq_false'] at hhelp
        rw [List.takeWhile_eq_self_iff.mpr (List.all_eq_true.mp hhelp)] at hown hlog
        rw [hbehind] at hspan
        rw [← hspan]
        refine ⟨by simp [hgeneral, hown], fun hnone => ?_⟩
        obtain ⟨hfront, hrest⟩ := noLog_append hnone
        rw [settings_eq_nil hfront] at houter
        cases houter
        exact hlog (settings_eq_nil fun v hv => hrest v (List.mem_cons_of_mem _ hv))
      · cases h
      · cases h
    · cases h

end Readings

/-- **The option parser of the program sets the log apart.** -/
theorem setsLogApart_read : OptionParser.SetsLogApart read := by
  intro before after words setting hplace hwords
  have hnone : ∀ v, .setting .log v ∉ items none none false (before ++ after) := fun v =>
    items_noLog v hplace.unset nofun
  cases setting with
  | none =>
    cases hwords
    rw [List.append_nil]
    exact Reading.sets_self fun _ _ hrun => ⟨(readItems_eq_run hrun).2 hnone, rfl⟩
  | some w =>
    have hunset : ∀ word ∈ before, ¬ SetsLog word := by
      intro word hword
      have hmem : word ∈ (before ++ after).takeWhile (· ≠ "--") := by
        rw [List.takeWhile_append_of_pos fun a ha =>
          decide_eq_true (ne_of_mem_of_not_mem ha hplace.notEnded)]
        exact List.mem_append_left _ hword
      exact hplace.unset word hmem
    have hahead : Ahead none none before :=
      ⟨hplace.notEnded, hplace.notAwaited, hunset, fun _ => ⟨rfl, hplace.noQuestion⟩, fun _ => rfl⟩
    have hinsert : Inserted w (items none none false (before ++ after))
        (items none none false (before ++ words ++ after)) := items_insert hwords hahead
    unfold read
    generalize items none none false (before ++ after) = found at hinsert hnone ⊢
    generalize items none none false (before ++ words ++ after) = found' at hinsert ⊢
    cases hinsert with
    | unread hwrong =>
      exact Reading.sets_self fun _ _ hrun => absurd hwrong (readItems_eq_run hrun).1
    | item front rest => exact readItems_insert hnone w

end Arguments

end ValueGrammar
