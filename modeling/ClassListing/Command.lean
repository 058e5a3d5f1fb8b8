import ClassListing.Collection
import ClassListing.Invocation
import ClassListing.Report

namespace ClassListing

structure Output where
  status : Nat
  stdout : String
  stderr : String
  deriving DecidableEq, Repr

namespace Command

/-- The stages of a request in the order in which they can fail. -/
inductive Error where
  | settings (error : Settings.Error)
  | collection (error : Collection.Error)
  | engine (error : UnknownEngine)
  | batch (failure : Failure)
  deriving DecidableEq, Repr

def Error.message : Error → String
  | settings error => error.message
  | collection error => error.message
  | engine error => error.message
  | batch _ => "Disassembly failed"

def Error.cause? : Error → Option String
  | settings error => error.cause?
  | collection error => error.cause?
  | engine _ => none
  | batch failure => some failure.message

def indented (text : String) : String :=
  String.ofList ("    ".toList ++
    text.toList.flatMap fun c => if c = '\n' then "\n    ".toList else [c])

def Error.report (error : Error) : String :=
  "Error: " ++ error.message ++ "\n" ++
    match error.cause? with
    | some cause => "\nCaused by:\n" ++ indented cause ++ "\n"
    | none => ""

def listings (disk : Disk) (request : Request) : Except Error Results := do
  let options ← (Settings.resolve disk request.config request.switches).mapError .settings
  let sources ← (Collection.collect disk request.paths).mapError .collection
  let engine ← ((Registry.standard options).resolve request.engine).mapError .engine
  (disassemble engine sources).mapError .batch

/-- Only a batch that failed is also reported as JSON. -/
def runRequest (disk : Disk) (request : Request) : Output :=
  match listings disk request with
  | .ok results =>
    ⟨0, if request.json then results.json.pretty ++ "\n" else results.report, ""⟩
  | .error error =>
    let record := match error with
      | .batch failure => if request.json then failure.json.pretty ++ "\n" else ""
      | _ => ""
    ⟨1, record, error.report⟩

def programName : String := "classtrace"

def programVersion : String := "0.1.0"

def usage : String :=
  "Usage: " ++ programName ++ " <COMMAND>\n\nCommands:\n" ++
    "  disassemble  Disassemble class files as one batch\n" ++
    "  engines      List the available disassembly engines\n" ++
    "  version      Print the library version\n"

def run (disk : Disk) : Invocation → Output
  | .disassemble request => runRequest disk request
  | .engines json =>
    let registry := Registry.standard {}
    ⟨0, if json then registry.json.pretty ++ "\n" else registry.report, ""⟩
  | .version => ⟨0, programName ++ " v" ++ programVersion ++ "\n", ""⟩
  | .about => ⟨0, programName ++ " " ++ programVersion ++ "\n", ""⟩
  | .help => ⟨0, usage, ""⟩

/-- A command line that makes no sense ends with a status of its own. -/
def usageOutput (error : UsageError) : Output :=
  ⟨2, "", "error: " ++ error.message ++ "\n\n" ++ usage⟩

def runArguments (disk : Disk) (args : List String) : Output :=
  match Invocation.read args with
  | .ok invocation => run disk invocation
  | .error error => usageOutput error

end Command

end ClassListing
