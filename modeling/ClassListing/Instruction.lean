import ClassListing.Opcode

namespace ClassListing

/-- Branch targets are offsets from the start of the code. Offsets are not cut to 32 bits, so they
stand for 32-bit words only in code of fewer than 2 ^ 32 bytes. -/
inductive Operands where
  | none
  | immediate (value : Int16)
  | constant (index : UInt16)
  | slot (index : UInt16)
  | increment (index : UInt16) (delta : Int16)
  | branch (target : Nat)
  | tableSwitch (default : Nat) (low high : Int32) (targets : List Nat)
  | lookupSwitch (default : Nat) (cases : List (Int32 × Nat))
  | invokeInterface (index : UInt16) (count : UInt8)
  | invokeDynamic (index : UInt16)
  | newArray (element : ArrayType)
  | multiNewArray (index : UInt16) (dimensions : UInt8)
  deriving DecidableEq, Repr

/-- The offset is that of the first byte, which is `wide` for a widened instruction; the opcode is
then the one after it. -/
structure Instruction where
  offset : Nat
  opcode : Opcode
  wide : Bool
  operands : Operands
  deriving DecidableEq, Repr

end ClassListing
