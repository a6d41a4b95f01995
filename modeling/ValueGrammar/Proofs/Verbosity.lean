import ValueGrammar.Proofs.Definitions
import ValueGrammar.Proofs.LogOption
import ValueGrammar.Proofs.Logging
import ValueGrammar.Proofs.Sessions
import ValueGrammar.Proofs.Size

/-!
# Runs under different log settings

Of the reader of log settings is asked that it reads level words as what they are documented for: a
word shows the levels up to its place, from any source and with any text. The option parser is asked
to set the log apart (`OptionParser.SetsLogApart`).

Two actions agree as far as a filter shows if they give the same and their logs are the same for it.
The commands are one action for all filters, but for the values of an expression: their number is
computed only if it is wanted. So the same command agrees with itself under a wider filter as far as
the narrower one shows, and so do runs whose arguments differ in log settings.

Headlines:
* **`LogReader.ReadsLevelWords`**: what is asked of a reader of log settings.
* **`agree_samplesAt`**, **`agree_lines`**: the commands agree under two filters.
* **`log_setting_only_hides_lines`**: a log setting decides only which lines of the log are shown.
* **`readsLevelWords_ofWord`**: the reader of the program reads level words.
-/

namespace ValueGrammar

/-! ## Level words -/

/-- How many levels a setting shows, from the one that matters most: errors and warnings if there is
no setting. -/
def levelsShown : Option String → Nat
  | none => 2
  | some w => levelWords.idxOf w.toLower

/-- **A reader of log settings reads level words**: it shows the levels up to the place of a word,
and has nothing to say about it. -/
def LogReader.ReadsLevelWords (reader : LogReader) : Prop :=
  ∀ w, IsLevelWord w → reader w = .upTo (levelsShown (some w))

theorem LogReader.ReadsLevelWords.filter_eq {reader : LogReader} (h : reader.ReadsLevelWords)
    {setting : Option String} (hwords : ∀ w ∈ setting, IsLevelWord w) :
    reader.filter setting = .upTo (levelsShown setting) := by
  cases setting with
  | none => rfl
  | some w => exact h w (hwords w rfl)

theorem toLower_of_isBlank {c : Char} (h : Text.isBlank c = true) : c.toLower = c := by
  obtain ⟨r, hr, hlow, hhigh⟩ := (Text.isBlank_iff c).mp h
  have hnot : ¬ (65 ≤ c.toNat ∧ c.toNat ≤ 90) := by
    simp only [Text.blankRanges, List.mem_cons, List.not_mem_nil, or_false] at hr
    rcases hr with rfl | rfl | rfl | rfl | rfl | rfl | rfl | rfl | rfl | rfl <;> omega
  unfold Char.toLower
  rw [dif_neg]
  rintro ⟨h₁, h₂⟩
  exact hnot ⟨h₁, h₂⟩

/-- A text without blanks is not trimmed. -/
theorem trim_eq_self {s : String} (h : ∀ c ∈ s.toList, Text.isBlank c = false) :
    Text.trim s = s := by
  have hstrip : Text.strip Text.isBlank s.toList = s.toList := by
    refine Text.strip_eq_iff.mpr ⟨⟨[], [], by simp, List.forall_mem_nil _, List.forall_mem_nil _⟩,
      fun c hc => h c ?_, fun c hc => h c ?_⟩
    · exact List.mem_of_mem_head? hc
    · exact List.mem_reverse.mp (List.mem_of_mem_head? hc)
  rw [Text.trim, hstrip, String.ofList_toList]

/-- **The reader of the program reads level words.** -/
theorem readsLevelWords_ofWord : LogReader.ReadsLevelWords .ofWord := by
  intro w h
  have hblank : ∀ c ∈ w.toList, Text.isBlank c = false := by
    intro c hc
    have hword : levelWords.all (fun s => s.toList.all fun d => !Text.isBlank d) = true := by
      decide +kernel
    have hmem : c.toLower ∈ w.toLower.toList := by
      show c.toLower ∈ (w.map Char.toLower).toList
      rw [String.toList_map]
      exact List.mem_map_of_mem hc
    by_contra hnot
    have hc' := List.all_eq_true.mp (List.all_eq_true.mp hword _ h) _ hmem
    rw [Bool.not_eq_false] at hnot
    rw [toLower_of_isBlank hnot, hnot] at hc'
    cases hc'
  have hplace : ∀ s ∈ levelWords, s ≠ "" ∧ (levelWords.idxOf? s).getD 0 = levelWords.idxOf s := by
    decide
  obtain ⟨hne, hidx⟩ := hplace _ h
  unfold LogFilter.ofWord
  rw [trim_eq_self hblank]
  show (if w.toLower = "" then _ else _) = _
  rw [if_neg hne, hidx]
  rfl

/-! ## Actions under different filters -/

namespace LogFilter

/-- **A filter is within another one** if all it wants and lets through, that one does. -/
structure Within (f g : LogFilter) : Prop where
  wants : ∀ level source, f.wants level source = true → g.wants level source = true
  admits : ∀ text, f.admits text = true → g.admits text = true

variable {f g : LogFilter}

theorem within_upTo {m n : Nat} (h : m ≤ n) : Within (upTo m) (upTo n) where
  wants level source hm := by
    simp only [upTo, decide_eq_true_eq] at hm ⊢
    omega
  admits _ h := h

/-- What a filter shows of all lines, it shows of those that a wider one shows. -/
theorem visible_visible (h : f.Within g) (log : List LogLine) :
    f.visible (g.visible log) = f.visible log := by
  unfold visible
  rw [List.filter_filter]
  refine List.filter_congr fun line _ => ?_
  cases hf : f.shows line with
  | false => rfl
  | true =>
    obtain ⟨hwants, hadmits⟩ := Bool.and_eq_true_iff.mp hf
    have hg : g.shows line = true :=
      Bool.and_eq_true_iff.mpr ⟨h.wants _ _ hwants, h.admits _ hadmits⟩
    rw [hg, Bool.true_and]

theorem visible_cons (f : LogFilter) (line : LogLine) (log : List LogLine) :
    f.visible (line :: log) = f.visible [line] ++ f.visible log :=
  List.filter_append [line] log

theorem visible_upTo (n : Nat) (log : List LogLine) :
    (upTo n).visible log = log.filter fun line => line.level.rank ≤ n :=
  List.filter_congr fun _ _ => Bool.and_true _

end LogFilter

namespace Action

variable {α β : Type} {f g : LogFilter}

/-- **Two actions agree as far as a filter shows**: behind the same log they give the same, and the
lines that are shown are the same. -/
def Agree (f : LogFilter) (a b : Action α) : Prop :=
  ∀ before, (StateT.run a.run before).1 = (StateT.run b.run before).1 ∧
    f.visible (StateT.run a.run before).2 = f.visible (StateT.run b.run before).2

theorem agree_refl (a : Action α) : Agree f a a := fun _ => ⟨rfl, rfl⟩

/-- Actions agree if they begin in the same way and go on in agreement. -/
theorem agree_bind {a : Action α} {next next' : α → Action β}
    (h : ∀ x, Agree f (next x) (next' x)) : Agree f (a >>= next) (a >>= next') := by
  intro before
  rw [run_bind, run_bind]
  rcases StateT.run a.run before with ⟨e | x, after⟩
  · exact ⟨rfl, rfl⟩
  · exact h x after

/-- A count that is not wanted is not shown. -/
theorem agree_logCount (h : f.wants .info "valgen::cli::samples" = false) (expression : String)
    (c : Compiled) (x : α) : Agree f (pure x) (logCount expression c >>= fun _ => pure x) := by
  intro before
  cases c with
  | text t => exact ⟨rfl, rfl⟩
  | values g =>
    have hnone : f.visible ((g.size.map (LogLine.counted expression)).toList) = [] := by
      refine List.filter_eq_nil_iff.mpr fun line hline => ?_
      obtain ⟨n, -, rfl⟩ := Option.map_eq_some_iff.mp (Option.mem_toList.mp hline)
      simp [LogFilter.shows, LogLine.counted, h]
    refine ⟨rfl, ?_⟩
    show f.visible before = f.visible (before ++ _)
    rw [LogFilter.visible, LogFilter.visible, List.filter_append]
    exact (List.append_right_eq_self.mpr hnone).symm

/-- **The count is the only thing that a filter decides on.** -/
theorem agree_samplesAt (h : f.Within g) (expression : String) (types : TypeTable)
    (limits : Limits) (listing : Listing) :
    Agree f (samplesAt f expression types limits listing)
      (samplesAt g expression types limits listing) := by
  have hcount : ∀ (compiled : Compiled) (x : List String),
      Agree f
        (ifWanted f .info "valgen::cli::samples" (logCount expression compiled) >>= fun _ => pure x)
        (ifWanted g .info "valgen::cli::samples" (logCount expression compiled) >>= fun _ =>
          pure x) := by
    intro compiled x
    unfold ifWanted
    cases hf : f.wants .info "valgen::cli::samples" with
    | true =>
      rw [h.wants _ _ hf]
      exact agree_refl _
    | false =>
      cases g.wants .info "valgen::cli::samples" with
      | false => exact agree_refl _
      | true => exact agree_logCount hf expression compiled x
  unfold samplesAt
  split
  · exact agree_bind fun text => agree_bind fun e => agree_bind fun compiled => hcount compiled _
  · exact agree_bind fun text => agree_bind fun e => agree_bind fun compiled => hcount compiled _

end Action

/-- The commands agree as far as the narrower of two filters shows. -/
theorem Command.agree_lines {f g : LogFilter} (h : f.Within g) (stdin : Stdin) (command : Command) :
    Action.Agree f (command.lines f stdin) (command.lines g stdin) := by
  cases command with
  | samples expression options types =>
    unfold Command.lines
    exact Action.agree_bind fun text => Action.agree_bind fun table =>
      Action.agree_samplesAt h text table _ _
  | parse expression pretty | source expression | symbols expressions | expand expression types =>
    exact Action.agree_refl _

/-! ## Arguments that differ in log settings -/

/-- **Two lists of arguments that differ in log settings only**: the setting is the environment's,
or is given at one place of the same list, or not at all; or the option parser reads the same
command in both. -/
inductive SameButLog (parser : OptionParser) : List String → List String → Prop
  | same (arguments : List String) : SameButLog parser arguments arguments
  | placed {before after words words' : List String} {setting setting' : Option String}
      (hplace : LogPlace before after) (hwords : GivesLog setting words)
      (hwords' : GivesLog setting' words') :
      SameButLog parser (before ++ words ++ after) (before ++ words' ++ after)
  | accepted {arguments arguments' : List String} {log log' : Option String} {command : Command}
      (h : parser arguments = .run log command) (h' : parser arguments' = .run log' command) :
      SameButLog parser arguments arguments'

/-- **Two readings that differ in their settings only**, or in why they are refusals. -/
inductive Reading.Alike : Reading → Reading → Prop
  | run (log log' : Option String) (command : Command) :
    Alike (.run log command) (.run log' command)
  | shown (text : String) : Alike (.shown text) (.shown text)
  | refused (message message' : String) : Alike (.refused message) (.refused message')

/-- A reading with a setting is like the one with another setting. -/
theorem Reading.Sets.alike {setting setting' : Option String} {r s s' : Reading}
    (h : Sets setting r s) (h' : Sets setting' r s') : Alike s s' := by
  cases h with
  | run command =>
    cases h'
    exact .run setting setting' command
  | shown text =>
    cases h'
    exact .shown text
  | refused message message' =>
    cases h'
    exact .refused message' _

theorem Reading.alike_refl (r : Reading) : Alike r r := by
  cases r with
  | run log command => exact .run log log command
  | shown text => exact .shown text
  | refused message => exact .refused message message

theorem Reading.Alike.symm {r s : Reading} (h : Alike r s) : Alike s r := by
  cases h with
  | run log log' command => exact .run log' log command
  | shown text => exact .shown text
  | refused message message' => exact .refused message' message

theorem SameButLog.alike {parser : OptionParser} {arguments arguments' : List String}
    (hparser : parser.SetsLogApart) (h : SameButLog parser arguments arguments') :
    Reading.Alike (parser arguments) (parser arguments') := by
  cases h with
  | same => exact Reading.alike_refl _
  | placed hplace hwords hwords' => exact (hparser hplace hwords).alike (hparser hplace hwords')
  | accepted h h' =>
    rw [h, h']
    exact .run _ _ _

/-! ## Runs -/

/-- **What stands behind the log of two runs**: nothing in both, the message of one failure in both,
or in each why its arguments are refused. -/
inductive ErrorTexts (r r' : Reading) : UInt8 → String → String → Prop
  | success : ErrorTexts r r' 0 "" ""
  | failure (f : Failure) : ErrorTexts r r' 1 (f.message ++ "\n") (f.message ++ "\n")
  | refusal {message message' : String} (h : r = .refused message) (h' : r' = .refused message') :
    ErrorTexts r r' 2 message message'

/-- What stands behind the log of a command does not depend on the log. -/
theorem exists_errorTexts (r r' : Reading) (result : Except Failure (List String)) :
    ∃ code out error, ErrorTexts r r' code error error ∧
      ∀ shown, Outcome.ofResult shown result = ⟨code, out, shown ++ error⟩ := by
  cases result with
  | ok lines =>
    refine ⟨0, joinLines lines, "", .success, fun shown => ?_⟩
    rw [String.append_empty]
    rfl
  | error f =>
    refine ⟨1, "", f.message ++ "\n", .failure f, fun shown => ?_⟩
    rw [← String.append_assoc]
    rfl

namespace Invocation

variable (parser : OptionParser)

/-- The log setting that counts: the one that the option parser reads, or that of the environment.
Without a command there is no log. -/
def logSetting (i : Invocation) : Option String :=
  match parser i.arguments with
  | .run log _ => log.or i.environmentLog
  | _ => none

variable {parser} {reader : LogReader} {i j : Invocation}

/-- Two runs end with the same code and the same output, and with texts behind their logs that go
together. -/
def EndAlike (parser : OptionParser) (reader : LogReader) (i j : Invocation) : Prop :=
  ∃ code out error error',
    ErrorTexts (parser i.arguments) (parser j.arguments) code error error' ∧
      i.runWith parser reader = ⟨code, out, renderLog (i.shownLines parser reader) ++ error⟩ ∧
      j.runWith parser reader = ⟨code, out, renderLog (j.shownLines parser reader) ++ error'⟩

/-- Two runs of one command end alike, and the one that shows fewer levels shows the lines of these
levels. -/
theorem run_of_commands {log log' : Option String} {command : Command}
    (hreader : reader.ReadsLevelWords) (hstdin : i.stdin = j.stdin)
    (hi : ∀ w ∈ i.logSetting parser, IsLevelWord w) (hj : ∀ w ∈ j.logSetting parser, IsLevelWord w)
    (hri : parser i.arguments = .run log command) (hrj : parser j.arguments = .run log' command)
    (hle : levelsShown (i.logSetting parser) ≤ levelsShown (j.logSetting parser)) :
    (i.shownLines parser reader = (j.shownLines parser reader).filter fun line =>
      line.level.rank ≤ levelsShown (i.logSetting parser)) ∧ EndAlike parser reader i j := by
  have hseti : i.logSetting parser = log.or i.environmentLog := by rw [logSetting, hri]
  have hsetj : j.logSetting parser = log'.or j.environmentLog := by rw [logSetting, hrj]
  rw [hseti] at hi hle ⊢
  rw [hsetj] at hj hle
  obtain ⟨hlines, hrun⟩ := run_of_command hri (hreader.filter_eq hi)
  obtain ⟨hlines', hrun'⟩ := run_of_command hrj (hreader.filter_eq hj)
  generalize levelsShown (log.or i.environmentLog) = m at *
  generalize levelsShown (log'.or j.environmentLog) = n at *
  have hwithin := LogFilter.within_upTo hle
  obtain ⟨hresult, hlog⟩ := Command.agree_lines hwithin j.stdin command []
  have hagree : (command.lines (.upTo m) j.stdin).result =
    (command.lines (.upTo n) j.stdin).result := hresult
  have hvisible : (LogFilter.upTo m).visible
        (.started :: (command.lines (.upTo m) j.stdin).outcome.2) =
      (LogFilter.upTo m).visible (.started :: (command.lines (.upTo n) j.stdin).outcome.2) := by
    rw [LogFilter.visible_cons, LogFilter.visible_cons _ _ (Prod.snd _)]
    exact congrArg _ hlog
  have hnothing (k : Nat) (text : String) : (LogFilter.upTo k).complaint ++ text = text :=
    String.empty_append
  rw [hnothing] at hrun hrun'
  rw [hstdin] at hlines hrun
  obtain ⟨code, out, error, herror, hout⟩ := exists_errorTexts (parser i.arguments)
    (parser j.arguments) (command.lines (.upTo n) j.stdin).result
  refine ⟨?_, code, out, error, error, herror, ?_, ?_⟩
  · rw [hlines, hlines', ← LogFilter.visible_upTo, LogFilter.visible_visible hwithin, hvisible]
  · rw [hrun, hagree, hout]
  · rw [hrun', hout]

theorem EndAlike.symm (h : EndAlike parser reader i j) : EndAlike parser reader j i := by
  obtain ⟨code, out, error, error', herror, hrun, hrun'⟩ := h
  refine ⟨code, out, error', error, ?_, hrun', hrun⟩
  cases herror with
  | success => exact .success
  | failure f => exact .failure f
  | refusal h h' => exact .refusal h' h

/-- Of two runs that are read alike, the one that shows fewer levels shows the lines of these levels
among those of the other one. -/
theorem run_of_alike (hreader : reader.ReadsLevelWords) (hstdin : i.stdin = j.stdin)
    (hi : ∀ w ∈ i.logSetting parser, IsLevelWord w) (hj : ∀ w ∈ j.logSetting parser, IsLevelWord w)
    (halike : Reading.Alike (parser i.arguments) (parser j.arguments))
    (hle : levelsShown (i.logSetting parser) ≤ levelsShown (j.logSetting parser)) :
    (i.shownLines parser reader = (j.shownLines parser reader).filter fun line =>
      line.level.rank ≤ levelsShown (i.logSetting parser)) ∧ EndAlike parser reader i j := by
  have hempty (text : String) : renderLog [] ++ text = text := String.empty_append
  generalize hri : parser i.arguments = r at halike
  generalize hrj : parser j.arguments = s at halike
  cases halike with
  | run log log' command => exact run_of_commands hreader hstdin hi hj hri hrj hle
  | shown text =>
    obtain ⟨hlines, hrun⟩ := run_of_shown reader hri
    obtain ⟨hlines', hrun'⟩ := run_of_shown reader hrj
    rw [hlines, hlines']
    refine ⟨rfl, 0, text, "", "", .success, ?_, ?_⟩
    · rw [hlines, hrun, hempty]
    · rw [hlines', hrun', hempty]
  | refused message message' =>
    obtain ⟨hlines, hrun⟩ := run_of_refused reader hri
    obtain ⟨hlines', hrun'⟩ := run_of_refused reader hrj
    rw [hlines, hlines']
    refine ⟨rfl, 2, "", message, message', .refusal hri hrj, ?_, ?_⟩
    · rw [hlines, hrun, hempty]
    · rw [hlines', hrun', hempty]

/-- **The log setting decides only which lines of the log are shown.** For any option parser that
sets the log apart and any reader of log settings that reads level words, two runs that are started
in the same way but for their settings end with the same code and print the same, and the same error
text stands behind the lines of their logs; only why arguments are refused may be said in other
words. The lines that the setting for fewer levels shows are the lines of its levels among those
that the other one shows, in the same order. The values are counted under some settings only, but
that never goes wrong. -/
theorem log_setting_only_hides_lines (hparser : parser.SetsLogApart)
    (hreader : reader.ReadsLevelWords) (harguments : SameButLog parser i.arguments j.arguments)
    (hstdin : i.stdin = j.stdin) (hi : ∀ w ∈ i.logSetting parser, IsLevelWord w)
    (hj : ∀ w ∈ j.logSetting parser, IsLevelWord w) :
    (i.runWith parser reader).exitCode = (j.runWith parser reader).exitCode ∧
      (i.runWith parser reader).stdout = (j.runWith parser reader).stdout ∧
      (∃ error error', ErrorTexts (parser i.arguments) (parser j.arguments)
          (i.runWith parser reader).exitCode error error' ∧
        (i.runWith parser reader).stderr = renderLog (i.shownLines parser reader) ++ error ∧
        (j.runWith parser reader).stderr = renderLog (j.shownLines parser reader) ++ error') ∧
      (levelsShown (i.logSetting parser) ≤ levelsShown (j.logSetting parser) →
        (i.shownLines parser reader = (j.shownLines parser reader).filter fun line =>
          line.level.rank ≤ levelsShown (i.logSetting parser)) ∧
        ∀ line ∈ j.shownLines parser reader,
          line.level.rank ≤ levelsShown (j.logSetting parser)) ∧
      ∀ input e limits g, Expr.parse input = .ok e → e.compile limits = .values g →
        g.count ≠ .error .underflow := by
  have halike := harguments.alike hparser
  have hend : EndAlike parser reader i j := by
    rcases Nat.le_total (levelsShown (i.logSetting parser)) (levelsShown (j.logSetting parser))
      with hle | hle
    · exact (run_of_alike hreader hstdin hi hj halike hle).2
    · exact (run_of_alike hreader hstdin.symm hj hi halike.symm hle).2.symm
  obtain ⟨code, out, error, error', herror, hrun, hrun'⟩ := hend
  refine ⟨?_, ?_, ⟨error, error', ?_, ?_, ?_⟩, fun hle => ⟨?_, fun line hline => ?_⟩,
    fun input e limits g hparse hcompile => ?_⟩
  · rw [hrun, hrun']
  · rw [hrun, hrun']
  · rw [hrun]
    exact herror
  · rw [hrun]
  · rw [hrun']
  · exact (run_of_alike hreader hstdin hi hj halike hle).1
  · -- a run compared with itself
    rw [(run_of_alike hreader rfl hj hj (Reading.alike_refl _) le_rfl).1, List.mem_filter] at hline
    exact of_decide_eq_true hline.2
  · obtain ⟨floor, hcounted⟩ := exists_counted limits (wellFormed_of_parse hparse)
    rw [← generator_of_compile hcompile] at hcounted
    exact Generator.not_underflow_of_counted hcounted

/-- A count that is shown under one setting, among the lines of the other one, in the program; and
arguments that it refuses with a setting and without one. -/
theorem log_setting_only_hides_lines_counted :
    let i : Invocation := ⟨["samples", "--log", "Info", "-k", "a|b"], .terminal, some "off"⟩
    let j : Invocation := ⟨["samples", "--log=trace", "-k", "a|b"], .terminal, none⟩
    let k : Invocation := ⟨["samples", "-k", "-k"], .terminal, none⟩
    let l : Invocation := ⟨["samples", "-k", "--log", "debug", "-k"], .terminal, none⟩
    SameButLog Arguments.read i.arguments j.arguments ∧
      i.logSetting Arguments.read = some "Info" ∧ j.logSetting Arguments.read = some "trace" ∧
      i.run = ⟨0, "a\nb\n", "[INFO  valgen::cli::samples] 'a|b' describes 2 values\n"⟩ ∧
      j.run.exitCode = 0 ∧ j.run.stdout = "a\nb\n" ∧
      j.run.stderr = renderLog (j.shownLines Arguments.read .ofWord) ∧
      i.shownLines Arguments.read .ofWord =
        (j.shownLines Arguments.read .ofWord).filter (fun line => line.level.rank ≤ 3) ∧
      SameButLog Arguments.read k.arguments l.arguments ∧ k.run.exitCode = 2 ∧
      l.run.exitCode = 2 := by
  intro i j k l
  have hparser := Arguments.setsLogApart_read
  have hreader := readsLevelWords_ofWord
  have hplace : LogPlace ["samples"] ["-k", "a|b"] :=
    ⟨by decide, by rintro _ ⟨⟩; decide, by decide, by decide⟩
  have hsame : SameButLog Arguments.read i.arguments j.arguments :=
    .placed hplace (.apart (by decide +kernel : IsLevelWord "Info"))
      (.attached (by decide +kernel : IsLevelWord "trace"))
  have hi : i.logSetting Arguments.read = some "Info" := by decide +kernel
  have hj : j.logSetting Arguments.read = some "trace" := by decide +kernel
  have hrun : i.run =
      ⟨0, "a\nb\n", "[INFO  valgen::cli::samples] 'a|b' describes 2 values\n"⟩ := by
    decide +kernel
  obtain ⟨hcode, hout, ⟨error, error', herror, -, hshown⟩, hlines, -⟩ :=
    log_setting_only_hides_lines hparser hreader hsame rfl
      (by rw [hi]; rintro w ⟨⟩; decide +kernel) (by rw [hj]; rintro w ⟨⟩; decide +kernel)
  have hrun' : i.runWith Arguments.read .ofWord = i.run := rfl
  rw [hrun', hrun] at hcode hout herror
  obtain ⟨rfl, rfl⟩ : error = "" ∧ error' = "" := by
    cases herror
    exact ⟨rfl, rfl⟩
  rw [String.append_empty] at hshown
  have hthree : levelsShown (some "Info") = 3 := by decide +kernel
  have hfive : levelsShown (some "trace") = 5 := by decide +kernel
  rw [hi, hj, hthree, hfive] at hlines
  have hfewer := (hlines (by decide)).1
  have hbehind : LogPlace ["samples", "-k"] ["-k"] :=
    ⟨by decide, by rintro _ ⟨⟩; decide, by decide, by decide⟩
  have hrefused : SameButLog Arguments.read k.arguments l.arguments :=
    .placed hbehind .unset (.apart (by decide +kernel : IsLevelWord "debug"))
  have hk : k.run.exitCode = 2 := by decide +kernel
  have hl := log_setting_only_hides_lines hparser hreader hrefused rfl
    (by decide +kernel) (by decide +kernel)
  exact ⟨hsame, hi, hj, hrun, hcode.symm, hout.symm, hshown, hfewer, hrefused, hk,
    hl.1.symm.trans hk⟩

end Invocation

end ValueGrammar
