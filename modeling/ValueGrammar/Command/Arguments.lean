import ValueGrammar.Command.Basic
import ValueGrammar.Text.Numeral

/-!
# An option parser

The option parser that the program is run with. It stands for the parser that is derived from `Cli`
and `Commands`, and keeps to its documented rules.

The arguments are first cut into items: options with their values, flags, operands and the name of
the command. Options may stand anywhere after the name of their command; `--word value`,
`--word=value`, `-l value`, `-lvalue` and `-l=value` are the same, flags of one letter can be
written together, `--` ends the options and `-` is an operand. The items stop at the first one that
no rule allows.

Then the items are read from left to right. An item that may not be there, a number that is none and
an option that is given twice refuse the arguments; help and the version are shown as soon as they
are asked for, whatever follows. Last, options that exclude each other refuse the arguments.

Out of scope: the words of the texts. Those that are shown here say only how to use the program.
-/

namespace ValueGrammar

namespace Arguments

/-! ## Options -/

/-- The commands by name. -/
inductive CommandName
  | samples
  | parse
  | source
  | symbols
  | expand
  deriving DecidableEq

/-- The words of the commands. -/
def CommandName.words : List (String × CommandName) :=
  [("samples", .samples), ("parse", .parse), ("source", .source), ("symbols", .symbols),
   ("expand", .expand)]

/-- The options of all commands. -/
inductive OptionName
  | log
  | version
  | help
  | limit
  | all
  | keepDuplicates
  | repeatLimit
  | drawLimit
  | types
  | pretty
  deriving DecidableEq

namespace OptionName

/-- The word of an option. -/
def word : OptionName → String
  | .log => "log"
  | .version => "version"
  | .help => "help"
  | .limit => "limit"
  | .all => "all"
  | .keepDuplicates => "keep-duplicates"
  | .repeatLimit => "repeat-limit"
  | .drawLimit => "draw-limit"
  | .types => "type"
  | .pretty => "pretty"

/-- The letter of an option, if it has one. -/
def letter? : OptionName → Option Char
  | .version => some 'V'
  | .help => some 'h'
  | .limit => some 'l'
  | .all => some 'a'
  | .keepDuplicates => some 'k'
  | .types => some 't'
  | .pretty => some 'p'
  | .log | .repeatLimit | .drawLimit => none

/-- Whether a value follows an option. -/
def takesValue : OptionName → Bool
  | .log | .limit | .repeatLimit | .drawLimit | .types => true
  | .version | .help | .all | .keepDuplicates | .pretty => false

end OptionName

/-- The options that are allowed before the name of a command, or after it. -/
def allowed : Option CommandName → List OptionName
  | none => [.log, .version, .help]
  | some .samples => [.log, .help, .limit, .all, .keepDuplicates, .repeatLimit, .drawLimit, .types]
  | some .parse => [.log, .help, .pretty]
  | some .source | some .symbols => [.log, .help]
  | some .expand => [.log, .help, .types]

/-! ## Items -/

/-- A part of the command line that means something. -/
inductive Item
  | flag (option : OptionName)
  | setting (option : OptionName) (value : String)
  | command (name : CommandName)
  | operand (text : String)
  | wrong
  deriving DecidableEq

/-- Whether an argument is read as options: it begins with `-` and is more than that. -/
def isOption (argument : String) : Bool :=
  match argument.toList with
  | '-' :: _ :: _ => true
  | _ => false

/-- The items of letters written together, and the option that still waits for its value. -/
def letters (scope : Option CommandName) : List Char → List Item × Option OptionName
  | [] => ([], none)
  | c :: rest =>
    match (allowed scope).find? fun option => option.letter? == some c with
    | none => ([.wrong], none)
    | some option =>
      if option.takesValue then
        match rest with
        | [] => ([], some option)
        | '=' :: value => ([.setting option (String.ofList value)], none)
        | value => ([.setting option (String.ofList value)], none)
      else
        let (items, waiting) := letters scope rest
        (.flag option :: items, waiting)

/-- The items of a word with what is attached to it, and the option that still waits for its
value. -/
def word (scope : Option CommandName) (cs : List Char) : List Item × Option OptionName :=
  let name := String.ofList (cs.takeWhile (· ≠ '='))
  let attached := cs.dropWhile (· ≠ '=')
  match (allowed scope).find? fun option => option.word == name with
  | none => ([.wrong], none)
  | some option =>
    match option.takesValue, attached with
    | true, [] => ([], some option)
    | true, _ :: value => ([.setting option (String.ofList value)], none)
    | false, [] => ([.flag option], none)
    | false, _ => ([.wrong], none)

/-- The items of an argument that is read as options, and the option that still waits for its
value. -/
def options (scope : Option CommandName) (argument : String) : List Item × Option OptionName :=
  match argument.toList with
  | '-' :: '-' :: cs => word scope cs
  | cs => letters scope cs.tail

/-- Whether words behind `help` name what there is help on, or nothing. -/
def isTopic : List String → Bool
  | [] => true
  | [word] => word = "help" ∨ (CommandName.words.lookup word).isSome
  | _ => false

/-- The items of some arguments. `scope` is the command that was named, `waiting` an option that
still waits for its value, and `ended` tells whether `--` was there. -/
def items (scope : Option CommandName) (waiting : Option OptionName) (ended : Bool) :
    List String → List Item
  | [] => if waiting.isSome then [.wrong] else []
  | a :: rest =>
    match waiting with
    | some option =>
      if isOption a then [.wrong] else .setting option a :: items scope none ended rest
    | none =>
      if isOption a ∧ ended = false then
        if a = "--" then items scope none true rest
        else
          let (found, waiting) := options scope a
          if .wrong ∈ found then found else found ++ items scope waiting false rest
      else
        match scope with
        | some _ => .operand a :: items scope none ended rest
        | none =>
          if ended then [.wrong]
          else if a = "help" then [if isTopic rest then .flag .help else .wrong]
          else
            match CommandName.words.lookup a with
            | some name => .command name :: items (some name) none false rest
            | none => [.wrong]

/-! ## Readings -/

/-- The values given for an option. -/
def settings (option : OptionName) (found : List Item) : List String :=
  found.filterMap fun
    | .setting c value => if c = option then some value else none
    | _ => none

/-- The operands. -/
def operands (found : List Item) : List String :=
  found.filterMap fun
    | .operand text => some text
    | _ => none

/-- At most one of some values, none if there are more. -/
def atMostOne {α : Type} : List α → Option (Option α)
  | [] => some none
  | [a] => some (some a)
  | _ => none

/-- Whether a flag is given, none if it is given twice. -/
def flag? (option : OptionName) (found : List Item) : Option Bool :=
  (atMostOne (found.filter fun item => item = .flag option)).map Option.isSome

/-- A number of 64 bits: digits, with or without a plus sign in front. -/
def number? (text : String) : Option UInt64 :=
  let digits := match text.toList with
    | '+' :: rest => rest
    | cs => cs
  (Text.natural? digits).bind fun n =>
    if h : n < UInt64.size then some (UInt64.ofNatLT n h) else none

/-- The number given for an option, if it is given; none if it is not a number or given twice. -/
def numberSetting? (option : OptionName) (found : List Item) : Option (Option UInt64) :=
  match settings option found with
  | [] => some none
  | [value] => (number? value).map some
  | _ => none

/-- The command of the items after its name, and whether its options go together. -/
def command? (name : CommandName) (found : List Item) : Option (Command × Bool) :=
  match name with
  | .samples => do
    let expression ← atMostOne (operands found)
    let limit ← numberSetting? .limit found
    let all ← flag? .all found
    let keepDuplicates ← flag? .keepDuplicates found
    let repeatLimit ← numberSetting? .repeatLimit found
    let drawLimit ← numberSetting? .drawLimit found
    let default : SamplesOptions := {}
    let options : SamplesOptions :=
      { limit := limit.getD default.limit, all, keepDuplicates
        repeatLimit := repeatLimit.getD default.repeatLimit, drawLimit }
    return (.samples expression options (settings .types found), !(all && limit.isSome))
  | .parse => do
    let expression ← atMostOne (operands found)
    let pretty ← flag? .pretty found
    return (.parse expression pretty, true)
  | .source => return (.source (← atMostOne (operands found)), true)
  | .symbols => return (.symbols (operands found), true)
  | .expand => return (.expand (← atMostOne (operands found)) (settings .types found), true)

/-- How to use the program. -/
def usage : String := "Usage: valgen [--log LEVEL] <samples|parse|source|symbols|expand> ...\n"

/-- The reading of arguments that no rule allows. -/
def refused : Reading := .refused ("error: invalid arguments\n\n" ++ usage)

/-- The text that a flag asks for. -/
def textOf : OptionName → String
  | .version => "valgen 0.1.0\n"
  | _ => usage

/-- Whether an item stands before the name of a command, and no text is asked for. -/
def Item.isGeneral : Item → Bool
  | .flag .version | .flag .help | .command _ => false
  | _ => true

/-- Whether an item asks for no help. -/
def Item.isNoHelp (item : Item) : Bool := item ≠ .flag .help

/-- The reading of the items behind the name of a command, up to one that asks for help if `help` is
asked for. A log setting among them wins over one before the name. -/
def readOwn (outer : Option String) (name : CommandName) (own : List Item) (help : Bool) :
    Reading :=
  if .wrong ∈ own then refused
  else
    match atMostOne (settings .log own), command? name own with
    | some inner, some (command, compatible) =>
      if help then .shown (textOf .help)
      else if compatible then .run (inner.or outer) command
      else refused
    | _, _ => refused

/-- The reading of what is behind the general items. -/
def readBehind (outer : Option String) : List Item → Reading
  | .command name :: rest =>
    readOwn outer name (rest.takeWhile Item.isNoHelp) (!rest.all Item.isNoHelp)
  | .flag option :: _ => .shown (textOf option)
  | _ => refused

/-- The reading of some items. -/
def readItems (found : List Item) : Reading :=
  let general := found.takeWhile Item.isGeneral
  if .wrong ∈ general then refused
  else
    match atMostOne (settings .log general) with
    | some outer => readBehind outer (found.dropWhile Item.isGeneral)
    | none => refused

/-- Reads arguments. -/
def read : OptionParser := fun arguments => readItems (items none none false arguments)

end Arguments

end ValueGrammar
