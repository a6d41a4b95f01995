import ValueGrammar.Command.Session

/-!
# Runs by what their arguments are read as

A run is what its option parser makes of the arguments: a text that is shown, a refusal, or a
command. A command ends with the result of its action, behind what is shown of the log.

Headlines:
* **`run_of_shown`**, **`run_of_refused`**, **`run_of_command`**: a run by the reading of its
  arguments.
-/

namespace ValueGrammar

namespace Invocation

variable (parser : OptionParser) (reader : LogReader)

/-- **The lines of the log that a run shows.** Only commands are logged. -/
def shownLines (i : Invocation) : List LogLine :=
  match parser i.arguments with
  | .run log command =>
    let f := reader.filter (log.or i.environmentLog)
    f.visible (.started :: (command.lines f i.stdin).outcome.2)
  | _ => []

variable {parser} {i : Invocation}

theorem run_of_shown {text : String} (h : parser i.arguments = .shown text) :
    i.shownLines parser reader = [] ∧ i.runWith parser reader = ⟨0, text, ""⟩ := by
  unfold shownLines runWith
  rw [h]
  exact ⟨rfl, rfl⟩

theorem run_of_refused {message : String} (h : parser i.arguments = .refused message) :
    i.shownLines parser reader = [] ∧ i.runWith parser reader = ⟨2, "", message⟩ := by
  unfold shownLines runWith
  rw [h]
  exact ⟨rfl, rfl⟩

variable {reader}

/-- A command shows the lines of its log that the filter shows, and ends with its result behind
them. -/
theorem run_of_command {log : Option String} {command : Command} {f : LogFilter}
    (h : parser i.arguments = .run log command)
    (hf : reader.filter (log.or i.environmentLog) = f) :
    i.shownLines parser reader = f.visible (.started :: (command.lines f i.stdin).outcome.2) ∧
      i.runWith parser reader = .ofResult (f.complaint ++ renderLog (i.shownLines parser reader))
        (command.lines f i.stdin).result := by
  subst hf
  unfold shownLines runWith
  rw [h]
  exact ⟨rfl, rfl⟩

end Invocation

end ValueGrammar
