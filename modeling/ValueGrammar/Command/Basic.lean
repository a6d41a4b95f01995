import ValueGrammar.Compiled
import ValueGrammar.Listing

/-!
# Commands

Models what the arguments of the program are read as (`Cli`, `Commands`, `TypeArgs`) and what `main`
makes of the options of a listing.

How arguments are read is a parameter: an `OptionParser` takes them to a `Reading`. It may hand out
a command, show a text of its own and end the run with success (its help, the version), or refuse
the arguments, say why and end the run with a failure.

Out of scope: the texts that an option parser shows or refuses arguments with, and arguments that
are no Unicode text.
-/

namespace ValueGrammar

/-- The options of a listing of samples, with what they are if they are not given. -/
structure SamplesOptions where
  limit : UInt64 := 10
  all : Bool := false
  keepDuplicates : Bool := false
  repeatLimit : UInt64 := ({} : Limits).repetitions
  drawLimit : Option UInt64 := none

namespace SamplesOptions

/-- The limits on repetition among the options. -/
def limits (o : SamplesOptions) : Limits := ⟨o.repeatLimit, o.drawLimit⟩

/-- The listing that the options ask for. -/
def listing (o : SamplesOptions) : Listing :=
  ⟨if o.all then none else some o.limit.toNat, !o.keepDuplicates⟩

end SamplesOptions

/-- What the program can be told to do. An expression that is not given is read from the standard
input. -/
inductive Command
  | samples (expression : Option String) (options : SamplesOptions) (types : List String)
  | parse (expression : Option String) (pretty : Bool)
  | source (expression : Option String)
  | symbols (expressions : List String)
  | expand (expression : Option String) (types : List String)

/-- What an option parser makes of the arguments. -/
inductive Reading
  /-- A command, and the setting that is given for the log. -/
  | run (log : Option String) (command : Command)
  /-- A text that the arguments ask for. -/
  | shown (text : String)
  /-- Why there is nothing to run. -/
  | refused (message : String)

/-- Reads arguments. -/
abbrev OptionParser := List String → Reading

/-- The options of a listing that are not given ask for the default listing and limits. -/
example : ({} : SamplesOptions).listing = {} ∧ ({} : SamplesOptions).limits = {} := ⟨rfl, rfl⟩

end ValueGrammar
