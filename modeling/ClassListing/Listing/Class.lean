import ClassListing.AccessFlags
import ClassListing.ClassFile.Reader
import ClassListing.Listing.Code

namespace ClassListing

open Numeral

def accessRow (indent : String) (declared : Declared) (word : UInt16) : String :=
  let names := flagNames declared word
  indent ++ "// access flags 0x" ++ upperHex 1 word.toNat ++
    if names.isEmpty then "" else " (" ++ ", ".intercalate names ++ ")"

namespace Attribute

def unknownRow (indent name : String) (info : Bytes) : String :=
  indent ++ "// attribute " ++ name ++ sizeText info

/-- The comment above a declaration that an attribute gives rise to. Attributes of unknown form
are among them only on members. -/
def comment (pool : Pool) (options : Options) (indent : String) (onMember : Bool) :
    Attribute → Except Fault (List String)
  | .signature text => return [indent ++ "// signature " ++ (← pool.utf8 text)]
  | .deprecated => return [indent ++ "// deprecated"]
  | .synthetic => return [indent ++ "// synthetic"]
  | .unknown name info =>
    return if onMember && options.shows name then [unknownRow indent name info] else []
  | _ => return []

def comments (pool : Pool) (options : Options) (indent : String) (onMember : Bool)
    (attributes : List Attribute) : Except Fault (List String) :=
  return (← attributes.mapM (comment pool options indent onMember)).flatten

end Attribute

namespace InnerClass

def row (pool : Pool) (entry : InnerClass) : Except Fault String := do
  let inner ← pool.className entry.inner
  let name ← if entry.name = 0 then pure "" else do pure (" = " ++ (← pool.utf8 entry.name))
  let outer ← if entry.outer = 0 then pure ""
    else do pure (" of " ++ (← pool.className entry.outer))
  return "    " ++ modifiers .innerClass entry.access ++ inner ++ name ++ outer

end InnerClass

namespace ClassFile

def versionRow (c : ClassFile) : String :=
  let major := natural c.major.toNat
  "// class version " ++ major ++ "." ++ natural c.minor.toNat ++ " (" ++ major ++ ")"

def sourceRows (options : Options) (c : ClassFile) : Except Fault (List String) := do
  if options.debugInfo then
    match ← c.sourceFile? with
    | some name => return ["// compiled from: " ++ name]
    | none => return []
  else return []

/-- The classes that a class extends and implements. An interface extends its interfaces. -/
def parents (c : ClassFile) : Except Fault String := do
  let interfaces ← c.interfaceNames
  let listed (keyword : String) : String :=
    if interfaces.isEmpty then "" else keyword ++ ", ".intercalate interfaces
  match ClassKind.ofFlags c.access with
  | .interface | .annotationType => return listed " extends "
  | _ =>
    match ← c.superClassName? with
    | some name => return " extends " ++ name ++ listed " implements "
    | none => return listed " implements "

def declaration (c : ClassFile) : Except Fault String := do
  let name ← c.className
  let parents ← c.parents
  return modifiers .classFile c.access ++ (ClassKind.ofFlags c.access).keyword ++ " " ++ name ++
    parents

def attributeRows (pool : Pool) : Attribute → Except Fault (List String)
  | .innerClasses entries => return "  InnerClasses:" :: (← entries.mapM (InnerClass.row pool))
  | .unknown name info => return [Attribute.unknownRow "  " name info]
  | _ => return []

def headerRows (options : Options) (c : ClassFile) : Except Fault (List String) := do
  let comments ← Attribute.comments c.pool options "" false c.attributes
  let source ← c.sourceRows options
  let declaration ← c.declaration
  let below ← c.attributes.mapM (attributeRows c.pool)
  return c.versionRow :: accessRow "" .classFile c.access :: comments ++ source ++
    declaration :: below.flatten

end ClassFile

namespace Pool

/-- The comment column of the pool starts after 40 characters. -/
def row (pool : Pool) (index : UInt16) (constant : Constant) : Except Fault String := do
  let entry := Column.right 6 (indexText index) ++ " = " ++
    Column.left 18 constant.kind.name ++ " " ++ constant.operandText
  if constant.kind.isLiteral then return entry
  else return Column.left 40 entry ++ " // " ++ (← pool.describe index)

def rows (pool : Pool) : Except Fault (List String) :=
  return "" :: "Constant pool:" ::
    (← pool.entries.mapM fun entry => pool.row entry.1 entry.2)

end Pool

namespace Member

/-- Initial values are written after the field, each after an equals sign. -/
def initialValue (pool : Pool) : Attribute → Except Fault String
  | .constantValue index => do
    let text ← pool.describe index
    match ← pool.get index with
    | .string _ => return " = \"" ++ text ++ "\""
    | _ => return " = " ++ text
  | _ => return ""

def fieldRows (pool : Pool) (options : Options) (field : Member) :
    Except Fault (List String) := do
  let comments ← Attribute.comments pool options "  " true field.attributes
  let descriptor ← pool.utf8 field.descriptor
  let name ← pool.utf8 field.name
  let values ← field.attributes.mapM (initialValue pool)
  return accessRow "  " .field field.access :: comments ++
    ["  " ++ modifiers .field field.access ++ descriptor ++ " " ++ name ++ String.join values]

def throwsClause (pool : Pool) : Attribute → Except Fault String
  | .exceptions classes => do
    let names ← classes.mapM pool.className
    return if names.isEmpty then "" else " throws " ++ ", ".intercalate names
  | _ => return ""

def bodyRows (pool : Pool) (options : Options) (method : Member) :
    Except Fault (List String) :=
  if options.code then
    match method.code? with
    | some (body, attributes) => body.rows pool options attributes
    | none => return []
  else return []

def methodRows (pool : Pool) (options : Options) (method : Member) :
    Except Fault (List String) := do
  let comments ← Attribute.comments pool options "  " true method.attributes
  let name ← pool.utf8 method.name
  let descriptor ← pool.utf8 method.descriptor
  let clauses ← method.attributes.mapM (throwsClause pool)
  let body ← method.bodyRows pool options
  return accessRow "  " .method method.access :: comments ++
    ("  " ++ modifiers .method method.access ++ name ++ descriptor ++ String.join clauses) :: body

def block (heading : String) (members : List (List String)) : List String :=
  "" :: heading :: if members.isEmpty then ["  (none)"] else [""].intercalate members

end Member

namespace ClassFile

def fieldsRows (options : Options) (c : ClassFile) : Except Fault (List String) :=
  return Member.block "Fields:" (← c.fields.mapM (Member.fieldRows c.pool options))

def methodsRows (options : Options) (c : ClassFile) : Except Fault (List String) :=
  return Member.block "Methods:" (← c.methods.mapM (Member.methodRows c.pool options))

def rows (options : Options) (c : ClassFile) : Except Fault (List String) := do
  let header ← c.headerRows options
  let pool ← if options.constantPool then c.pool.rows else pure []
  let fields ← c.fieldsRows options
  let methods ← c.methodsRows options
  return header ++ pool ++ fields ++ methods

def listing (options : Options) (c : ClassFile) : Except Fault String :=
  return String.join ((← c.rows options).map (· ++ "\n"))

end ClassFile

def render (options : Options) (bytes : Bytes) : Except Fault String := do
  (← ClassFile.read bytes).listing options

end ClassListing
