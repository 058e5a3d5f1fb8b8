import ClassListing.Attribute
import ClassListing.Listing.Options
import ClassListing.Pool.Describe
import ClassListing.Text.Blank
import ClassListing.Text.Column

namespace ClassListing

open Numeral

namespace Instruction

def mnemonicText (i : Instruction) : String :=
  if i.wide then "wide " ++ i.opcode.mnemonic else i.opcode.mnemonic

def label (i : Instruction) : String :=
  Column.right 10 (natural i.offset) ++ ": " ++ Column.left 13 i.mnemonicText ++ " "

def plainRow (i : Instruction) (operand : String) : String :=
  trimRight (i.label ++ operand)

/-- The comment column starts after 32 characters of mnemonic and operand. -/
def commentedRow (i : Instruction) (operand comment : String) : String :=
  Column.right 10 (natural i.offset) ++ ": " ++
    Column.left 32 (Column.left 13 i.mnemonicText ++ " " ++ operand) ++ " // " ++ comment

def caseRow (key : String) (target : Nat) : String :=
  Column.right 24 key ++ ": " ++ natural target

def switchRows (i : Instruction) (summary : String) (cases : List (Int × Nat)) (default : Nat) :
    List String :=
  (i.label ++ "\x7b // " ++ summary) ::
    (cases.map fun (key, target) => caseRow (decimal key) target) ++
    [caseRow "default" default, Column.right 13 "\x7d"]

/-- The cases of a table are numbered from its lowest key. -/
def tableCases (low : Int) (targets : List Nat) : List (Int × Nat) :=
  targets.zipIdx.map fun (target, place) => (low + place, target)

def rows (pool : Pool) (i : Instruction) : Except Fault (List String) :=
  match i.operands with
  | .none => return [i.plainRow ""]
  | .immediate value => return [i.plainRow (decimal value.toInt)]
  | .slot index => return [i.plainRow (natural index.toNat)]
  | .branch target => return [i.plainRow (natural target)]
  | .increment index delta =>
    return [i.plainRow (natural index.toNat ++ ", " ++ decimal delta.toInt)]
  | .newArray element => return [i.plainRow element.name]
  | .constant index =>
    return [i.commentedRow (indexText index) (← pool.operandComment index)]
  | .invokeInterface index count =>
    return [i.commentedRow (indexText index ++ ",  " ++ natural count.toNat)
      (← pool.operandComment index)]
  | .invokeDynamic index =>
    return [i.commentedRow (indexText index ++ ",  0") (← pool.operandComment index)]
  | .multiNewArray index dimensions =>
    return [i.commentedRow (indexText index ++ ",  " ++ natural dimensions.toNat)
      (← pool.operandComment index)]
  | .tableSwitch default low high targets =>
    return i.switchRows (decimal low.toInt ++ " to " ++ decimal high.toInt)
      (tableCases low.toInt targets) default
  | .lookupSwitch default cases =>
    return i.switchRows (natural cases.length) (cases.map fun (key, target) => (key.toInt, target))
      default

end Instruction

namespace Handler

def row (pool : Pool) (h : Handler) : Except Fault String := do
  let type ← if h.catchType = 0 then pure "any"
    else do pure ("Class " ++ (← pool.className h.catchType))
  return Column.right 11 (natural h.start.toNat) ++ Column.right 6 (natural h.stop.toNat) ++
    Column.right 8 (natural h.entry.toNat) ++ "   " ++ type

def rows (pool : Pool) (handlers : List Handler) : Except Fault (List String) :=
  if handlers.isEmpty then return []
  else
    return "    Exception table:" :: "       from    to  target type" ::
      (← handlers.mapM (row pool))

end Handler

def LineNumber.row (n : LineNumber) : String :=
  "      line " ++ natural n.line.toNat ++ ": " ++ natural n.start.toNat

def LocalVariable.row (pool : Pool) (v : LocalVariable) : Except Fault String := do
  let name ← pool.utf8 v.name
  let descriptor ← pool.utf8 v.descriptor
  return Column.right 11 (natural v.start.toNat) ++ Column.right 8 (natural v.length.toNat) ++
    Column.right 6 (natural v.slot.toNat) ++ "  " ++ Column.left 6 name ++ " " ++ descriptor

namespace Attribute

def sizeText (info : Bytes) : String := " (" ++ natural info.length ++ " bytes)"

def rowsInCode (pool : Pool) (options : Options) : Attribute → Except Fault (List String)
  | .lineNumbers rows =>
    return if options.debugInfo then "    LineNumberTable:" :: rows.map LineNumber.row else []
  | .localVariables rows =>
    if options.debugInfo then
      return "    LocalVariableTable:" :: "      Start  Length  Slot  Name   Signature" ::
        (← rows.mapM (LocalVariable.row pool))
    else return []
  | .unknown name info =>
    return if options.shows name then ["    // attribute " ++ name ++ sizeText info] else []
  | other =>
    return if options.shows other.name then ["    // attribute " ++ other.name] else []

end Attribute

def CodeBody.heading (body : CodeBody) : String :=
  "    Code: stack=" ++ natural body.maxStack.toNat ++ ", locals=" ++
    natural body.maxLocals.toNat ++ ", length=" ++ natural body.code.length

def CodeBody.rows (pool : Pool) (options : Options) (body : CodeBody)
    (attributes : List Attribute) : Except Fault (List String) := do
  let instructions ← body.instructions.mapM (Instruction.rows pool)
  let handlers ← Handler.rows pool body.handlers
  let inside ← attributes.mapM (Attribute.rowsInCode pool options)
  return body.heading :: instructions.flatten ++ handlers ++ inside.flatten

end ClassListing
