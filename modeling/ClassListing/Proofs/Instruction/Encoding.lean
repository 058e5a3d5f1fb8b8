import ClassListing.Instruction.Decode
import ClassListing.Proofs.Layout
import Mathlib.Algebra.Ring.Int.Defs

namespace ClassListing

namespace Layout

def FitsSigned (width : Nat) (n : Int) : Prop := -2 ^ (8 * width - 1) ≤ n ∧ n < 2 ^ (8 * width - 1)

def signed (width : Nat) (n : Int) : Bytes := number width (n % 256 ^ width).toNat

end Layout

open Layout

namespace OperandShape

def ofMnemonic (mnemonic : String) : OperandShape :=
  match mnemonic with
  | "bipush" => signedByte
  | "sipush" => signedShort
  | "ldc" => shortIndex
  | "ldc_w" | "ldc2_w" | "getstatic" | "putstatic" | "getfield" | "putfield" | "invokevirtual"
  | "invokespecial" | "invokestatic" | "new" | "anewarray" | "checkcast" | "instanceof" => index
  | "iload" | "lload" | "fload" | "dload" | "aload" | "istore" | "lstore" | "fstore" | "dstore"
  | "astore" | "ret" => slot
  | "iinc" => increment
  | "ifeq" | "ifne" | "iflt" | "ifge" | "ifgt" | "ifle" | "if_icmpeq" | "if_icmpne" | "if_icmplt"
  | "if_icmpge" | "if_icmpgt" | "if_icmple" | "if_acmpeq" | "if_acmpne" | "goto" | "jsr"
  | "ifnull" | "ifnonnull" => branch
  | "goto_w" | "jsr_w" => wideBranch
  | "tableswitch" => tableSwitch
  | "lookupswitch" => lookupSwitch
  | "invokeinterface" => invokeInterface
  | "invokedynamic" => invokeDynamic
  | "newarray" => newArray
  | "multianewarray" => multiNewArray
  | "wide" => wide
  | _ => none

end OperandShape

theorem Opcode.shape_eq_ofMnemonic (op : Opcode) :
    op.shape = OperandShape.ofMnemonic op.mnemonic := by
  have hall : ∀ n : Fin 202, OperandShape.ofByte (UInt8.ofNat n) =
      OperandShape.ofMnemonic (mnemonics.get n) := by decide +kernel
  have h := hall ⟨op.byte.toNat, op.assigned⟩
  rw [UInt8.ofNat_toNat] at h
  exact h

namespace Operands

/-- A branch at `offset` can lead to the target: it is inside the code, and its distance fits. -/
def Reaches (length offset width target : Nat) : Prop :=
  target < length ∧ FitsSigned width (target - offset)

def distance (width offset target : Nat) : Bytes := signed width (target - offset)

/-- The bytes before the operands of a switch at `offset`, up to a multiple of 4. -/
def Padding (offset : Nat) (padding : Bytes) : Prop :=
  padding.length < 4 ∧ (offset + 1 + padding.length) % 4 = 0

/-- The operands of the instruction at `offset`, after an opcode that asks for a shape, in code of
the given length. The padding and the reserved bytes can be any. -/
inductive Spelled (length offset : Nat) : OperandShape → Operands → Bytes → Prop
  | none : Spelled length offset .none .none []
  | signedByte {value : Int16} (h : FitsSigned 1 value.toInt) :
      Spelled length offset .signedByte (.immediate value) (signed 1 value.toInt)
  | signedShort (value : Int16) :
      Spelled length offset .signedShort (.immediate value) (signed 2 value.toInt)
  | shortIndex {index : UInt16} (h : index.toNat < 256) :
      Spelled length offset .shortIndex (.constant index) (number 1 index.toNat)
  | index (index : UInt16) :
      Spelled length offset .index (.constant index) (number 2 index.toNat)
  | slot {index : UInt16} (h : index.toNat < 256) :
      Spelled length offset .slot (.slot index) (number 1 index.toNat)
  | increment {index : UInt16} {delta : Int16} (h : index.toNat < 256)
      (hdelta : FitsSigned 1 delta.toInt) :
      Spelled length offset .increment (.increment index delta)
        (number 1 index.toNat ++ signed 1 delta.toInt)
  | branch {target : Nat} (h : Reaches length offset 2 target) :
      Spelled length offset .branch (.branch target) (distance 2 offset target)
  | wideBranch {target : Nat} (h : Reaches length offset 4 target) :
      Spelled length offset .wideBranch (.branch target) (distance 4 offset target)
  | tableSwitch {padding : Bytes} {default : Nat} {low high : Int32} {targets : List Nat}
      (hpadding : Padding offset padding) (hdefault : Reaches length offset 4 default)
      (hrange : low.toInt ≤ high.toInt)
      (hcount : (targets.length : Int) = high.toInt - low.toInt + 1)
      (htargets : ∀ target ∈ targets, Reaches length offset 4 target) :
      Spelled length offset .tableSwitch (.tableSwitch default low high targets)
        (padding ++ (distance 4 offset default ++ (signed 4 low.toInt ++ (signed 4 high.toInt ++
          targets.flatMap (distance 4 offset)))))
  | lookupSwitch {padding : Bytes} {default : Nat} {cases : List (Int32 × Nat)}
      (hpadding : Padding offset padding) (hdefault : Reaches length offset 4 default)
      (hcount : cases.length < 2 ^ 31)
      (htargets : ∀ case ∈ cases, Reaches length offset 4 case.2) :
      Spelled length offset .lookupSwitch (.lookupSwitch default cases)
        (padding ++ (distance 4 offset default ++ (signed 4 cases.length ++
          cases.flatMap fun case => signed 4 case.1.toInt ++ distance 4 offset case.2)))
  | invokeInterface (index : UInt16) (count reserved : UInt8) :
      Spelled length offset .invokeInterface (.invokeInterface index count)
        (number 2 index.toNat ++ [count, reserved])
  | invokeDynamic (index reserved : UInt16) :
      Spelled length offset .invokeDynamic (.invokeDynamic index)
        (number 2 index.toNat ++ number 2 reserved.toNat)
  | newArray (element : ArrayType) :
      Spelled length offset .newArray (.newArray element) [element.code]
  | multiNewArray (index : UInt16) (dimensions : UInt8) :
      Spelled length offset .multiNewArray (.multiNewArray index dimensions)
        (number 2 index.toNat ++ [dimensions])

end Operands

namespace Instruction

/-- One instruction in code of the given length. The byte 0xC4 is `wide`: it is never an
instruction of its own, and what it widens has operands of two bytes each. -/
inductive Spelled (length : Nat) : Instruction → Bytes → Prop
  | plain {offset : Nat} {op : Opcode} {operands : Operands} {bytes : Bytes}
      (h : operands.Spelled length offset (.ofMnemonic op.mnemonic) bytes) :
      Spelled length ⟨offset, op, false, operands⟩ (op.byte :: bytes)
  | wideSlot (offset : Nat) {op : Opcode} (index : UInt16)
      (h : OperandShape.ofMnemonic op.mnemonic = .slot) :
      Spelled length ⟨offset, op, true, .slot index⟩ (0xC4 :: op.byte :: number 2 index.toNat)
  | wideIncrement (offset : Nat) {op : Opcode} (index : UInt16) (delta : Int16)
      (h : OperandShape.ofMnemonic op.mnemonic = .increment) :
      Spelled length ⟨offset, op, true, .increment index delta⟩
        (0xC4 :: op.byte :: (number 2 index.toNat ++ signed 2 delta.toInt))

/-- Instructions one after the other from `offset` on, each where the one before it ends. -/
inductive Tiles (length : Nat) : Nat → List Instruction → Bytes → Prop
  | nil (offset : Nat) : Tiles length offset [] []
  | cons {i : Instruction} {is : List Instruction} {spelled rest : Bytes}
      (h : i.Spelled length spelled) (hs : Tiles length (i.offset + spelled.length) is rest) :
      Tiles length i.offset (i :: is) (spelled ++ rest)

end Instruction

end ClassListing
