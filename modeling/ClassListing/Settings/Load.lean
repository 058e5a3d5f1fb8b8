import ClassListing.FileTree
import ClassListing.Settings.Json
import ClassListing.Settings.Yaml
import ClassListing.Text.Blank

namespace ClassListing.Settings

inductive Format where
  | yaml
  | json
  deriving DecidableEq, Repr

def Format.name : Format → String
  | yaml => "YAML"
  | json => "JSON"

/-- The case of the extension does not matter. -/
def Format.ofPath? (path : String) : Option Format :=
  match (Path.extension? path).map fun extension => extension.toList.map Char.toLower with
  | some ['y', 'a', 'm', 'l'] | some ['y', 'm', 'l'] => some yaml
  | some ['j', 's', 'o', 'n'] => some json
  | _ => none

inductive Error where
  | unreadable (path : String) (problem : AccessError)
  | unsupported (path : String)
  | malformed (format : Format) (path : String)
  deriving DecidableEq, Repr

def Error.message : Error → String
  | unreadable path _ => "Failed to read config file " ++ path
  | unsupported path =>
    "Unsupported config file " ++ path ++ " (expected .yaml, .yml or .json)"
  | malformed format path => "Failed to parse " ++ format.name ++ " config " ++ path

def Error.cause? : Error → Option String
  | unreadable _ problem => some problem.message
  | unsupported _ => none
  | malformed _ _ => some "the document does not describe listing options"

def readText (disk : Disk) (path : String) : Except AccessError String :=
  match disk path with
  | .error problem => .error problem
  | .ok (.closed problem) => .error problem
  | .ok (.hidden problem) => .error problem
  | .ok (.directory _) => .error .isDirectory
  | .ok (.file (.error problem)) => .error problem
  | .ok (.file (.ok bytes)) =>
    match String.fromUTF8? ⟨bytes.toArray⟩ with
    | some text => .ok text
    | none => .error .notText

def parse? (format : Format) (text : String) : Option Options :=
  match format with
  | .yaml => ofYaml? text
  | .json => ofJson? text

/-- A blank file leaves all options as they are, whatever its extension. -/
def load (disk : Disk) (path : String) : Except Error Options :=
  match readText disk path with
  | .error problem => .error (.unreadable path problem)
  | .ok text =>
    if isBlankText text then .ok {}
    else
      match Format.ofPath? path with
      | none => .error (.unsupported path)
      | some format =>
        match parse? format text with
        | some options => .ok options
        | none => .error (.malformed format path)

structure Switches where
  noConstantPool : Bool := false
  noCode : Bool := false
  noDebugInfo : Bool := false
  deriving DecidableEq, Repr

def Switches.apply (switches : Switches) (options : Options) : Options :=
  ⟨options.constantPool && !switches.noConstantPool, options.code && !switches.noCode,
    options.debugInfo && !switches.noDebugInfo⟩

def resolve (disk : Disk) (config : Option String) (switches : Switches) :
    Except Error Options := do
  let options ← match config with
    | some path => load disk path
    | none => pure {}
  return switches.apply options

end ClassListing.Settings
