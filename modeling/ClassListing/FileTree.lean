import ClassListing.FileName

namespace ClassListing

inductive AccessError where
  | notFound
  | notDirectory
  | isDirectory
  | nameTooLong
  | notText
  | other (message : String)
  deriving DecidableEq, Repr

def AccessError.message : AccessError → String
  | notFound => "No such file or directory (os error 2)"
  | notDirectory => "Not a directory (os error 20)"
  | isDirectory => "Is a directory (os error 21)"
  | nameTooLong => "File name too long (os error 36)"
  | notText => "stream did not contain valid UTF-8"
  | other message => message

/-- Whatever is no directory is a file with what reading it gives: also a special file, and a link,
which is not followed inside a directory. A closed directory cannot be listed. Of a hidden entry not
even the kind can be told. -/
inductive FileTree where
  | file (content : Except AccessError Bytes)
  | directory (entries : List (FileName × FileTree))
  | closed (problem : AccessError)
  | hidden (problem : AccessError)
  deriving Inhabited, Repr

/-- What stands at a path, with what is met below it by that path. -/
abbrev Disk := String → Except AccessError FileTree

namespace FileTree

def maxNameLength : Nat := 255

def maxPathLength : Nat := 4095

/-- Follows the segments of a path. `passed` are the directories that lead here, the nearest
first; above the top there is only the top. -/
def walk (passed : List FileTree) (here : FileTree) : List String → Except AccessError FileTree
  | [] =>
    match here with
    | .hidden problem => .error problem
    | here => .ok here
  | segment :: rest =>
    match here with
    | .file _ => .error .notDirectory
    | .closed problem => .error problem
    | .hidden problem => .error problem
    | .directory entries =>
      if Path.isIdle segment then walk passed here rest
      else if segment = ".." then
        match passed with
        | [] => walk [] here rest
        | above :: others => walk others above rest
      else if maxNameLength < segment.utf8ByteSize then .error .nameTooLong
      else
        match entries.lookup (.text segment) with
        | none => .error .notFound
        | some next => walk (here :: passed) next rest

mutual

/-- What is left of a tree when the path to it has so many bytes: no access by a path that is too
long. -/
def limit (length : Nat) : FileTree → FileTree
  | .file content => .file (if maxPathLength < length then .error .nameTooLong else content)
  | .closed problem => .closed (if maxPathLength < length then .nameTooLong else problem)
  | .hidden problem => .hidden problem
  | .directory entries =>
    if maxPathLength < length then .closed .nameTooLong
    else .directory (limitEntries length entries)

def limitEntries (length : Nat) : List (FileName × FileTree) → List (FileName × FileTree)
  | [] => []
  | (name, tree) :: rest =>
    (name, limit (length + 1 + name.bytes.length) tree) :: limitEntries length rest

end

/-- A tree as a disk, with its top as the current directory. -/
def disk (tree : FileTree) : Disk := fun path =>
  if path = "" then .error .notFound
  else if maxPathLength < path.utf8ByteSize then .error .nameTooLong
  else
    -- a slash at the end of the path is the one in front of the names below it
    (walk [] tree (Path.segments path)).map (limit ((Path.below path "").utf8ByteSize - 1))

def setEntry (name : FileName) (tree : FileTree) :
    List (FileName × FileTree) → List (FileName × FileTree)
  | [] => [(name, tree)]
  | entry :: rest =>
    if entry.1 = name then (name, tree) :: rest else entry :: setEntry name tree rest

/-- The tree with a file, or with a directory where no content is given. Directories on the way
are made; one that is there already stays. -/
def put (tree : FileTree) (content : Option Bytes) : List String → FileTree
  | [] =>
    match content, tree with
    | some bytes, _ => .file (.ok bytes)
    | none, .directory entries => .directory entries
    | none, _ => .directory []
  | segment :: rest =>
    let entries := match tree with
      | .directory entries => entries
      | _ => []
    if Path.isIdle segment then put (.directory entries) content rest
    else
      let below := (entries.lookup (.text segment)).getD (.directory [])
      .directory (setEntry (.text segment) (put below content rest) entries)

end FileTree

end ClassListing
