import ClassListing.Batch
import ClassListing.FileTree

namespace ClassListing.Collection

inductive Error where
  | unreadable (path : String) (problem : AccessError)
  | unlistable (path : String) (problem : AccessError)
  | unknownEntry (problem : AccessError)
  | nameless (problem : Path.NameError)
  | duplicate (name path : String)
  | unreadableClass (path : String) (problem : AccessError)
  deriving DecidableEq, Repr

def Error.message : Error → String
  | unreadable path _ => "Failed to read " ++ path
  | unlistable path _ => "Failed to read directory " ++ path
  | unknownEntry problem => problem.message
  | nameless problem => problem.message
  | duplicate name path => "Duplicate class name '" ++ name ++ "' (from " ++ path ++ ")"
  | unreadableClass path _ => "Failed to read class file " ++ path

def Error.cause? : Error → Option String
  | unreadable _ problem | unlistable _ problem | unreadableClass _ problem => some problem.message
  | unknownEntry _ | nameless _ | duplicate .. => none

structure Found where
  names : List FileName
  content : Except AccessError Bytes

def Found.under (name : FileName) (file : Found) : Found :=
  { file with names := name :: file.names }

mutual

/-- The files below a path in the order in which directories are listed. The first thing that cannot
be listed ends the scan. -/
def scan (path : String) : FileTree → Except Error (List Found)
  | .file content => .ok [⟨[], content⟩]
  | .closed problem => .error (.unlistable path problem)
  | .hidden problem => .error (.unknownEntry problem)
  | .directory entries => scanEntries path entries

def scanEntries (path : String) : List (FileName × FileTree) → Except Error (List Found)
  | [] => .ok []
  | (name, tree) :: rest => do
    let files ← scan (Path.below path name.shown) tree
    return files.map (Found.under name) ++ (← scanEntries path rest)

end

def Found.isClassFile (file : Found) : Bool := file.names.getLast?.any FileName.isClassFile

def Found.notAfter (file other : Found) : Bool :=
  !decide (other.names.map FileName.bytes < file.names.map FileName.bytes)

def classFiles (files : List Found) : List Found :=
  (files.filter Found.isClassFile).mergeSort Found.notAfter

/-- A file that belongs to a batch: the name of its class, the path it was found by, and what
reading it gives. -/
structure Selected where
  name : Except Path.NameError String
  path : String
  content : Except AccessError Bytes

def Found.selected (path : String) (file : Found) : Selected :=
  ⟨FileName.className file.names, Path.below path (Path.join (file.names.map FileName.shown)),
    file.content⟩

def selectTree (path : String) : FileTree → Except Error (List Selected)
  | .file content => .ok [⟨Path.fileClassName path, path, content⟩]
  | .closed problem => .error (.unlistable path problem)
  | .hidden problem => .error (.unreadable path problem)
  | .directory entries =>
    return (classFiles (← scanEntries path entries)).map (Found.selected path)

def select (disk : Disk) (path : String) : Except Error (List Selected) :=
  match disk path with
  | .error problem => .error (.unreadable path problem)
  | .ok tree => selectTree path tree

/-- A class is added only under a name that is still free, and read only then. -/
def add (sources : Sources) (file : Selected) : Except Error Sources :=
  match file.name with
  | .error problem => .error (.nameless problem)
  | .ok name =>
    if sources.contains name then .error (.duplicate name file.path)
    else
      match file.content with
      | .error problem => .error (.unreadableClass file.path problem)
      | .ok bytes => .ok (sources.insert name bytes)

def addPath (disk : Disk) (sources : Sources) (path : String) : Except Error Sources := do
  (← select disk path).foldlM add sources

def collect (disk : Disk) (paths : List String) : Except Error Sources :=
  paths.foldlM (addPath disk) .empty

end ClassListing.Collection
