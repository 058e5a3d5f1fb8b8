import ClassListing.Command

namespace ClassListing.CommandLine

/-- The text of an error of the system is followed by its number. -/
def accessError : IO.Error → AccessError
  | .noFileOrDirectory .. => .notFound
  | .alreadyExists _ code details | .invalidArgument _ code details
  | .permissionDenied _ code details | .resourceExhausted _ code details
  | .inappropriateType _ code details | .noSuchThing _ code details => system code details
  | .otherError code details | .resourceBusy code details | .resourceVanished code details
  | .unsupportedOperation code details | .hardwareFault code details
  | .unsatisfiedConstraints code details | .illegalOperation code details
  | .protocolError code details | .timeExpired code details => system code details
  | .interrupted _ code details => system code details
  | error => .other (toString error)
where
  system (code : UInt32) (details : String) : AccessError :=
    .other (details ++ " (os error " ++ Numeral.natural code.toNat ++ ")")

def contentAt (path : String) : BaseIO (Except AccessError Bytes) := do
  let place := (⟨path, ""⟩ : IO.FS.DirEntry).root
  return match ← (IO.FS.readBinFile place).toBaseIO with
    | .ok bytes => .ok bytes.toList
    | .error error => .error (accessError error)

/-- What a directory lists. Links in it are not followed, and only class files are read. -/
partial def listing (path : String) : BaseIO FileTree := do
  match ← (⟨path, ""⟩ : IO.FS.DirEntry).root.readDir.toBaseIO with
  | .error error => return .closed (accessError error)
  | .ok entries =>
    .directory <$> entries.toList.mapM fun entry => do
      let below := Path.below path entry.fileName
      return (.text entry.fileName, ← match ← entry.path.symlinkMetadata.toBaseIO with
        | .error error => pure (.hidden (accessError error))
        | .ok metadata =>
          if metadata.type == .dir then listing below
          else if Path.isClassFile below then .file <$> contentAt below
          else pure (.file (.ok [])))

/-- What stands at a path. Links that lead to it are followed. -/
def load (path : String) : BaseIO (Except AccessError FileTree) := do
  match ← (⟨path, ""⟩ : IO.FS.DirEntry).root.metadata.toBaseIO with
  | .error error => return .error (accessError error)
  | .ok metadata =>
    if metadata.type == .dir then .ok <$> listing path else (.ok ∘ .file) <$> contentAt path

def pathsOf : Invocation → List String
  | .disassemble request => request.config.toList ++ request.paths
  | _ => []

def outputOf (args : List String) : IO Output := do
  match Invocation.read args with
  | .error error => return Command.usageOutput error
  | .ok invocation =>
    let found ← (pathsOf invocation).mapM fun path => return (path, ← load path)
    return Command.run (fun path => (found.lookup path).getD (.error .notFound)) invocation

end ClassListing.CommandLine

def main (args : List String) : IO UInt32 := do
  let output ← ClassListing.CommandLine.outputOf args
  IO.print output.stdout
  IO.eprint output.stderr
  return output.status.toUInt32
