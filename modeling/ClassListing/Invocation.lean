import ClassListing.Settings.Load

namespace ClassListing

structure Request where
  paths : List String
  engine : String
  config : Option String
  json : Bool
  switches : Settings.Switches
  deriving DecidableEq, Repr

inductive Invocation where
  | disassemble (request : Request)
  | engines (json : Bool)
  | version
  | about
  | help
  deriving DecidableEq, Repr

inductive UsageError where
  | missingCommand
  | unknownCommand (name : String)
  | unknownArgument (text : String)
  | missingValue (option : String)
  | unexpectedValue (flag : String)
  | repeated (name : String)
  | missingPaths
  deriving DecidableEq, Repr

def UsageError.message : UsageError → String
  | missingCommand => "a command is required"
  | unknownCommand name => "unknown command '" ++ name ++ "'"
  | unknownArgument text => "unexpected argument '" ++ text ++ "'"
  | missingValue option => "a value is required for '" ++ option ++ "'"
  | unexpectedValue flag => "'" ++ flag ++ "' takes no value"
  | repeated name => "'" ++ name ++ "' is given more than once"
  | missingPaths => "at least one path is required"

inductive Argument where
  | flag (name : String)
  | option (name value : String)
  | positional (text : String)
  | help
  deriving DecidableEq, Repr

structure CommandForm where
  flags : List String
  options : List String
  takesPaths : Bool

namespace Argument

/-- A text that is taken for the name of a flag or an option, or ends them. -/
def isDashed (text : String) : Bool :=
  match text.toList with
  | '-' :: _ :: _ => true
  | _ => false

def cut (text : String) : String × Option String :=
  let chars := text.toList
  let name := String.ofList (chars.takeWhile (· != '='))
  match chars.dropWhile (· != '=') with
  | _ :: value => (name, some (String.ofList value))
  | [] => (name, none)

def readPaths (form : CommandForm) : List String → Except UsageError (List Argument)
  | [] => .ok []
  | text :: rest =>
    if form.takesPaths then .ok ((text :: rest).map .positional)
    else .error (.unknownArgument text)

/-- The parts of a command line, from left to right: it is refused at the first part that makes no
sense, and a call for help ends it. `seen` are the names that may not come again. After two dashes
alone all are paths. -/
def read (form : CommandForm) (seen : List String) :
    List String → Except UsageError (List Argument)
  | [] => .ok []
  | text :: rest =>
    if text = "--" then readPaths form rest
    else if !isDashed text then
      if form.takesPaths then return .positional text :: (← read form seen rest)
      else .error (.unknownArgument text)
    else if !text.startsWith "--" then
      if text.startsWith "-h" then .ok [.help] else .error (.unknownArgument text)
    else
      match cut text with
      | (name, some value) =>
        if form.options.contains name then
          if seen.contains name then .error (.repeated name)
          else return .option name value :: (← read form (name :: seen) rest)
        else if form.flags.contains name || name == "--help" then .error (.unexpectedValue name)
        else .error (.unknownArgument text)
      | (name, none) =>
        if name == "--help" then .ok [.help]
        else if seen.contains name then .error (.repeated name)
        else if form.options.contains name then
          match rest with
          | value :: rest =>
            if isDashed value then .error (.missingValue name)
            else return .option name value :: (← read form (name :: seen) rest)
          | [] => .error (.missingValue name)
        else if form.flags.contains name then
          return .flag name :: (← read form (name :: seen) rest)
        else .error (.unknownArgument text)

def hasFlag (args : List Argument) (name : String) : Bool := args.contains (.flag name)

def value? (args : List Argument) (name : String) : Option String :=
  args.findSome? fun
    | .option found value => if found == name then some value else none
    | _ => none

def positionals (args : List Argument) : List String :=
  args.filterMap fun
    | .positional text => some text
    | _ => none

end Argument

namespace Invocation

def defaultEngine : String := "classfile"

def disassembleForm : CommandForm where
  flags := ["--json", "--no-constant-pool", "--no-code", "--no-debug-info"]
  options := ["--engine", "--config"]
  takesPaths := true

def enginesForm : CommandForm := ⟨["--json"], [], false⟩

def versionForm : CommandForm := ⟨[], [], false⟩

def readRequest (args : List Argument) : Except UsageError Invocation :=
  let paths := Argument.positionals args
  if paths.isEmpty then .error .missingPaths
  else
    .ok (.disassemble
      { paths
        engine := (Argument.value? args "--engine").getD defaultEngine
        config := Argument.value? args "--config"
        json := Argument.hasFlag args "--json"
        switches :=
          ⟨Argument.hasFlag args "--no-constant-pool", Argument.hasFlag args "--no-code",
            Argument.hasFlag args "--no-debug-info"⟩ })

def readCommand (form : CommandForm) (texts : List String)
    (command : List Argument → Except UsageError Invocation) : Except UsageError Invocation := do
  let args ← Argument.read form [] texts
  if args.contains .help then return .help else command args

def commandNames : List String := ["disassemble", "engines", "version", "help"]

def readHelp : List String → Except UsageError Invocation
  | [] => .ok .help
  | [name] => if commandNames.contains name then .ok .help else .error (.unknownCommand name)
  | name :: other :: _ =>
    .error (.unknownCommand (if commandNames.contains name then other else name))

def read : List String → Except UsageError Invocation
  | [] => .error .missingCommand
  | "disassemble" :: rest => readCommand disassembleForm rest readRequest
  | "engines" :: rest =>
    readCommand enginesForm rest fun args => return .engines (Argument.hasFlag args "--json")
  | "version" :: rest => readCommand versionForm rest fun _ => return .version
  | "help" :: rest => readHelp rest
  | text :: _ =>
    if text = "--version" ∨ text.startsWith "-V" then .ok .about
    else if text = "--help" ∨ text.startsWith "-h" then .ok .help
    else if Argument.isDashed text then .error (.unknownArgument text)
    else .error (.unknownCommand text)

end Invocation

end ClassListing
