import LintLocator.Run.Options
import LintLocator.Text.Split

/-!
# Commands

The arguments of the program, read as a command.  There are two of them: showing the version, and
`run` with its options.  Each option takes a value and may be given once.

The value of `-c` may be written as `-c x`, `-cx` or `-c=x`, and that of `--config` as `--config x`
or `--config=x`.  A value in an argument of its own must not look like an option, but it may be
empty or a single dash.  Behind `--` there are no options any more, and `run` takes nothing else.
-/

namespace LintLocator

/-- The options that can be given to `run`. -/
inductive RunOption where
  | settingsFile
  | template
  | delimiter
  deriving DecidableEq, Repr, Inhabited

namespace RunOption

/-- The option with a letter. -/
def ofLetter? : Char → Option RunOption
  | 'c' => some settingsFile
  | 'e' => some template
  | 'd' => some delimiter
  | _ => none

/-- The option with a name. -/
def ofName? (name : String) : Option RunOption :=
  if name == "config" then some settingsFile
  else if name == "efm" then some template
  else if name == "delim" then some delimiter
  else none

/-- Whether the option can have a value.  A settings file must have a name. -/
def admits : RunOption → String → Bool
  | settingsFile, value => value != ""
  | _, _ => true

/-- The value that stands in the same argument as the letter of an option. -/
def attachedValue? : List Char → Option String
  | [] => none
  | '=' :: value => some (String.ofList value)
  | value => some (String.ofList value)

/-- Reads an argument as an option, with the value in it if there is one. -/
def read? : List Char → Option (RunOption × Option String)
  | '-' :: '-' :: body =>
    match Text.breakOn ['='] body with
    | some (name, value) =>
      (ofName? (String.ofList name)).map fun o => (o, some (String.ofList value))
    | none => (ofName? (String.ofList body)).map fun o => (o, none)
  | '-' :: letter :: body => (ofLetter? letter).map fun o => (o, attachedValue? body)
  | _ => none

/-- Whether an argument can be the value of the option before it. -/
def isValue (argument : String) : Bool := argument == "-" || argument.toList.head? != some '-'

/-- Reads the arguments behind `run` as options with their values. -/
def readAll? : List String → Option (List (RunOption × String))
  | [] => some []
  | argument :: rest =>
    if argument == "--" then if rest.isEmpty then some [] else none
    else
      match read? argument.toList with
      | none => none
      | some (o, some value) => (readAll? rest).map fun given => (o, value) :: given
      | some (o, none) =>
        match rest with
        | [] => none
        | value :: further =>
          if isValue value then (readAll? further).map fun given => (o, value) :: given else none

end RunOption

namespace RunOptions

/-- The options with a value set. -/
def set (o : RunOptions) : RunOption × String → RunOptions
  | (.settingsFile, value) => { o with settingsFile := value }
  | (.template, value) => { o with template := value }
  | (.delimiter, value) => { o with delimiter := value }

/-- The options with the given values set.  No option may be given twice. -/
def ofGiven? (given : List (RunOption × String)) : Option RunOptions :=
  if (given.map Prod.fst).Nodup && given.all fun g => g.1.admits g.2 then
    some (given.foldl set {})
  else none

end RunOptions

/-- What the program can be asked to do. -/
inductive Command where
  | version
  | run (options : RunOptions)
  deriving DecidableEq, Repr, Inhabited

namespace Command

/-- Whether an argument asks for the version.  Nothing that follows the letter matters. -/
def asksVersion (argument : String) : Bool :=
  argument == "--version" || ['-', 'V'].isPrefixOf argument.toList

/-- Reads the arguments of the program. -/
def read? : List String → Option Command
  | [] => none
  | argument :: rest =>
    if argument == "run" then
      (RunOption.readAll? rest).bind fun given => (RunOptions.ofGiven? given).map run
    else if asksVersion argument then some version
    else none

end Command
end LintLocator
