import ClassListing.Constant
import ClassListing.Opcode
import ClassListing.Text.Numeral

namespace ClassListing

/-- Offsets count from the start of the bytes being read: the file, an attribute's body, or a
code array. -/
inductive Fault where
  | badMagic (word : UInt32)
  | unsupportedVersion (major minor : UInt16)
  | unexpectedEnd (offset needed : Nat)
  | trailingBytes (count : Nat)
  | unknownTag (tag : UInt8) (index : UInt16)
  | badIndex (index : UInt16)
  | wrongKind (index : UInt16) (expected : Role) (found : ConstantKind)
  | malformedText (index : UInt16)
  | badReferenceKind (index : UInt16) (code : UInt8)
  | attributeLength (name : String) (declared actual : Nat)
  | unknownOpcode (byte : UInt8) (offset : Nat)
  | truncated (opcode : Opcode) (offset : Nat)
  | branchOutside (offset : Nat) (target : Int)
  | badArrayType (code : UInt8) (offset : Nat)
  | emptySwitchRange (offset : Nat) (low high : Int32)
  | negativeSwitchSize (offset : Nat) (size : Int32)
  | codeTooLong (length : Nat)
  | unformatted
  deriving DecidableEq, Repr

namespace Fault

open Numeral

def message : Fault → String
  | badMagic word => "Bad magic number 0x" ++ upperHex 8 word.toNat ++ "; not a class file"
  | unsupportedVersion major minor =>
    "Unsupported class file version " ++ natural major.toNat ++ "." ++ natural minor.toNat
  | unexpectedEnd offset needed =>
    "Unexpected end of class file at offset " ++ natural offset ++ " (needed " ++
      natural needed ++ " more bytes)"
  | trailingBytes count => natural count ++ " trailing bytes after end of class file"
  | unknownTag tag index =>
    "Invalid constant pool tag " ++ natural tag.toNat ++ " at index " ++ natural index.toNat
  | badIndex index =>
    "Constant pool index " ++ natural index.toNat ++ " is out of range or unusable"
  | wrongKind index expected found =>
    "Constant pool entry #" ++ natural index.toNat ++ " is " ++ found.name ++ ", expected " ++
      expected.label
  | malformedText index =>
    "Malformed modified UTF-8 in constant pool entry #" ++ natural index.toNat
  | badReferenceKind index code =>
    "Invalid method handle reference kind " ++ natural code.toNat ++
      " in constant pool entry #" ++ natural index.toNat
  | attributeLength name declared actual =>
    "Attribute " ++ name ++ " declares " ++ natural declared ++
      " bytes but its contents span " ++ natural actual
  | unknownOpcode byte offset =>
    "Invalid opcode 0x" ++ upperHex 2 byte.toNat ++ " at bytecode offset " ++ natural offset
  | truncated opcode offset =>
    "Truncated " ++ opcode.mnemonic ++ " instruction at bytecode offset " ++ natural offset
  | branchOutside offset target =>
    "Branch at bytecode offset " ++ natural offset ++ " targets " ++ decimal target ++
      ", outside the code array"
  | badArrayType code offset =>
    "Invalid newarray type " ++ natural code.toNat ++ " at bytecode offset " ++ natural offset
  | emptySwitchRange offset low high =>
    "Invalid switch range " ++ decimal low.toInt ++ ".." ++ decimal high.toInt ++
      " at bytecode offset " ++ natural offset
  | negativeSwitchSize offset size =>
    "Negative lookupswitch pair count " ++ decimal size.toInt ++ " at bytecode offset " ++
      natural offset
  | codeTooLong length =>
    "Code array of " ++ natural length ++ " bytes exceeds the 65535 byte limit"
  | unformatted =>
    "Failed to format disassembly: an error occurred when formatting an argument"

end Fault

end ClassListing
