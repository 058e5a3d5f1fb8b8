import ClassListing.Decimal.Text
import ClassListing.Pool
import ClassListing.Text.Escape

namespace ClassListing

open Numeral

def indexText (index : UInt16) : String := "#" ++ natural index.toNat

namespace Constant

def floatText (bits : UInt32) : String := Decimal.binary32.text bits.toNat ++ "f"

def doubleText (bits : UInt64) : String := Decimal.binary64.text bits.toNat ++ "d"

def longText (value : Int64) : String := decimal value.toInt ++ "l"

/-- The value of a literal, the indices of a reference. -/
def operandText : Constant → String
  | utf8 text => escape text
  | integer value => decimal value.toInt
  | float bits => floatText bits
  | long value => longText value
  | double bits => doubleText bits
  | classRef name | module name | package name => indexText name
  | string text => indexText text
  | methodType descriptor => indexText descriptor
  | member _ owner signature => indexText owner ++ "." ++ indexText signature
  | nameAndType name descriptor => indexText name ++ ":" ++ indexText descriptor
  | methodHandle code target => natural code.toNat ++ ":" ++ indexText target
  | dynamic bootstrap signature | invokeDynamic bootstrap signature =>
    indexText bootstrap ++ ":" ++ indexText signature

end Constant

def quoteAfter (mark : Char) (text : String) : String :=
  if text.toList.head? = some mark then "\"" ++ text ++ "\"" else text

def classText (name : String) : String := quoteAfter '[' name

def memberNameText (name : String) : String := quoteAfter '<' name

namespace Pool

def Signature.text (s : Signature) : String :=
  memberNameText s.name ++ ":" ++ s.descriptor

def MemberRef.text (m : MemberRef) : String :=
  classText m.owner ++ "." ++ m.signature.text

/-- What an entry stands for. There is no recursion through handles: in a pool that can be read they
lead to members only, and elsewhere the result is an error. -/
def describe (pool : Pool) (index : UInt16) : Except Fault String := do
  match ← pool.get index with
  | .utf8 text => return escape text
  | .integer value => return decimal value.toInt
  | .float bits => return Constant.floatText bits
  | .long value => return Constant.longText value
  | .double bits => return Constant.doubleText bits
  | .classRef name => return classText (← pool.utf8 name)
  | .string text => return escape (← pool.utf8 text)
  | .member _ _ _ => return (← pool.member index).text
  | .nameAndType _ _ => return (← pool.signature index).text
  | .methodHandle code target =>
    return referenceKindName code ++ " " ++ (← pool.member target).text
  | .methodType descriptor => pool.utf8 descriptor
  | .dynamic bootstrap nameAndType | .invokeDynamic bootstrap nameAndType =>
    return indexText bootstrap ++ ":" ++ (← pool.signature nameAndType).text
  | .module name | .package name => pool.utf8 name

def operandComment (pool : Pool) (index : UInt16) : Except Fault String := do
  let constant ← pool.get index
  return constant.kind.operandLabel ++ " " ++ (← pool.describe index)

end Pool

end ClassListing
