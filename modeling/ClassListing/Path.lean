namespace ClassListing.Path

def segments (path : String) : List String :=
  (path.toList.splitOn '/').map String.ofList

def join (segments : List String) : String := "/".intercalate segments

def below (directory file : String) : String :=
  if directory.toList.getLast? = some '/' then directory ++ file else directory ++ "/" ++ file

def isIdle (segment : String) : Bool := segment == "" || segment == "."

inductive Component where
  | root
  | current
  | parent
  | normal (name : String)
  deriving DecidableEq, Repr

def later? (segment : String) : Option Component :=
  if isIdle segment then none
  else if segment = ".." then some .parent
  else some (.normal segment)

/-- The first segment is empty when the path starts with a slash. -/
def first? (segment : String) (alone : Bool) : Option Component :=
  if segment = "" then if alone then none else some .root
  else if segment = "." then some .current
  else later? segment

/-- The steps of a path. A dot is a step only in front of all others. -/
def components (path : String) : List Component :=
  match segments path with
  | [] => []
  | segment :: others =>
    (first? segment others.isEmpty).toList ++ others.filterMap later?

def fileName? (path : String) : Option String :=
  match (components path).getLast? with
  | some (.normal name) => some name
  | _ => none

/-- A name cut at its last dot. A dot in front cuts nothing off. -/
def cutName (name : String) : String × Option String :=
  let reversed := name.toList.reverse
  let extension := (reversed.takeWhile (· != '.')).reverse
  let stem := ((reversed.dropWhile (· != '.')).drop 1).reverse
  if stem.isEmpty then (name, none) else (String.ofList stem, some (String.ofList extension))

def extension? (path : String) : Option String :=
  (fileName? path).bind fun name => (cutName name).2

def stem? (path : String) : Option String :=
  (fileName? path).map fun name => (cutName name).1

def isClassFile (path : String) : Bool :=
  extension? path == some "class"

/-- The path with the extension of its file name cut off. What is left of the name takes along
the dot in front of the extension when it would be a dot alone at the end of the path. -/
def withoutExtension (path : String) : String :=
  let reversed := (segments path).reverse
  let idle := reversed.takeWhile isIdle
  match reversed.dropWhile isIdle with
  | [] => path
  | name :: before =>
    if name = ".." then path
    else
      match cutName name with
      | (_, none) => join (before.reverse ++ [name])
      | (stem, some _) =>
        let left := if stem = "." && idle.isEmpty then ".." else stem
        join (before.reverse ++ [left])

inductive NameError where
  | notText (shown : String)
  | unexpectedComponent (path : String)
  | underivable (path : String)
  deriving DecidableEq, Repr

def NameError.message : NameError → String
  | notText shown => "Class path is not valid UTF-8: " ++ shown
  | unexpectedComponent path => "Unexpected component in class path: " ++ path
  | underivable path => "Cannot derive a class name from " ++ path

def Component.name? : Component → Option String
  | .normal name => some name
  | _ => none

def className (path : String) : Except NameError String :=
  match (components (withoutExtension path)).mapM Component.name? with
  | none => .error (.unexpectedComponent path)
  | some [] => .error (.underivable path)
  | some names => .ok (join names)

def fileClassName (path : String) : Except NameError String :=
  match stem? path with
  | some stem => .ok stem
  | none => .error (.underivable path)

end ClassListing.Path
