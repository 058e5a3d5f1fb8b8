namespace ClassListing

def mnemonics : Vector String 202 := #v[
  "nop", "aconst_null", "iconst_m1", "iconst_0", "iconst_1", "iconst_2", "iconst_3",
  "iconst_4", "iconst_5", "lconst_0", "lconst_1", "fconst_0", "fconst_1", "fconst_2",
  "dconst_0", "dconst_1", "bipush", "sipush", "ldc", "ldc_w", "ldc2_w", "iload", "lload",
  "fload", "dload", "aload", "iload_0", "iload_1", "iload_2", "iload_3", "lload_0", "lload_1",
  "lload_2", "lload_3", "fload_0", "fload_1", "fload_2", "fload_3", "dload_0", "dload_1",
  "dload_2", "dload_3", "aload_0", "aload_1", "aload_2", "aload_3", "iaload", "laload",
  "faload", "daload", "aaload", "baload", "caload", "saload", "istore", "lstore", "fstore",
  "dstore", "astore", "istore_0", "istore_1", "istore_2", "istore_3", "lstore_0", "lstore_1",
  "lstore_2", "lstore_3", "fstore_0", "fstore_1", "fstore_2", "fstore_3", "dstore_0",
  "dstore_1", "dstore_2", "dstore_3", "astore_0", "astore_1", "astore_2", "astore_3",
  "iastore", "lastore", "fastore", "dastore", "aastore", "bastore", "castore", "sastore",
  "pop", "pop2", "dup", "dup_x1", "dup_x2", "dup2", "dup2_x1", "dup2_x2", "swap", "iadd",
  "ladd", "fadd", "dadd", "isub", "lsub", "fsub", "dsub", "imul", "lmul", "fmul", "dmul",
  "idiv", "ldiv", "fdiv", "ddiv", "irem", "lrem", "frem", "drem", "ineg", "lneg", "fneg",
  "dneg", "ishl", "lshl", "ishr", "lshr", "iushr", "lushr", "iand", "land", "ior", "lor",
  "ixor", "lxor", "iinc", "i2l", "i2f", "i2d", "l2i", "l2f", "l2d", "f2i", "f2l", "f2d",
  "d2i", "d2l", "d2f", "i2b", "i2c", "i2s", "lcmp", "fcmpl", "fcmpg", "dcmpl", "dcmpg",
  "ifeq", "ifne", "iflt", "ifge", "ifgt", "ifle", "if_icmpeq", "if_icmpne", "if_icmplt",
  "if_icmpge", "if_icmpgt", "if_icmple", "if_acmpeq", "if_acmpne", "goto", "jsr", "ret",
  "tableswitch", "lookupswitch", "ireturn", "lreturn", "freturn", "dreturn", "areturn",
  "return", "getstatic", "putstatic", "getfield", "putfield", "invokevirtual",
  "invokespecial", "invokestatic", "invokeinterface", "invokedynamic", "new", "newarray",
  "anewarray", "arraylength", "athrow", "checkcast", "instanceof", "monitorenter",
  "monitorexit", "wide", "multianewarray", "ifnull", "ifnonnull", "goto_w", "jsr_w"]

structure Opcode where
  byte : UInt8
  assigned : byte.toNat < 202
  deriving DecidableEq, Repr

inductive OperandShape where
  | none
  | signedByte
  | signedShort
  | shortIndex
  | index
  | slot
  | increment
  | branch
  | wideBranch
  | tableSwitch
  | lookupSwitch
  | invokeInterface
  | invokeDynamic
  | newArray
  | multiNewArray
  | wide
  deriving DecidableEq, Repr

namespace OperandShape

/-- The shape after a byte; a byte that is no opcode has nothing after it. -/
def ofByte (b : UInt8) : OperandShape :=
  if b = 0x10 then signedByte
  else if b = 0x11 then signedShort
  else if b = 0x12 then shortIndex
  else if 0x13 ≤ b ∧ b ≤ 0x14 then index
  else if 0x15 ≤ b ∧ b ≤ 0x19 then slot
  else if 0x36 ≤ b ∧ b ≤ 0x3A then slot
  else if b = 0x84 then increment
  else if 0x99 ≤ b ∧ b ≤ 0xA8 then branch
  else if b = 0xA9 then slot
  else if b = 0xAA then tableSwitch
  else if b = 0xAB then lookupSwitch
  else if 0xB2 ≤ b ∧ b ≤ 0xB8 then index
  else if b = 0xB9 then invokeInterface
  else if b = 0xBA then invokeDynamic
  else if b = 0xBB then index
  else if b = 0xBC then newArray
  else if b = 0xBD then index
  else if 0xC0 ≤ b ∧ b ≤ 0xC1 then index
  else if b = 0xC4 then wide
  else if b = 0xC5 then multiNewArray
  else if 0xC6 ≤ b ∧ b ≤ 0xC7 then branch
  else if 0xC8 ≤ b ∧ b ≤ 0xC9 then wideBranch
  else none

end OperandShape

namespace Opcode

def ofByte? (b : UInt8) : Option Opcode :=
  if h : b.toNat < 202 then some ⟨b, h⟩ else none

def mnemonic (op : Opcode) : String :=
  mnemonics.get ⟨op.byte.toNat, op.assigned⟩

def shape (op : Opcode) : OperandShape :=
  OperandShape.ofByte op.byte

end Opcode

inductive ArrayType where
  | boolean
  | char
  | float
  | double
  | byte
  | short
  | int
  | long
  deriving DecidableEq, Repr

namespace ArrayType

def ofCode? (code : UInt8) : Option ArrayType :=
  if code = 4 then some boolean
  else if code = 5 then some char
  else if code = 6 then some float
  else if code = 7 then some double
  else if code = 8 then some byte
  else if code = 9 then some short
  else if code = 10 then some int
  else if code = 11 then some long
  else none

def code : ArrayType → UInt8
  | boolean => 4
  | char => 5
  | float => 6
  | double => 7
  | byte => 8
  | short => 9
  | int => 10
  | long => 11

def name : ArrayType → String
  | boolean => "boolean"
  | char => "char"
  | float => "float"
  | double => "double"
  | byte => "byte"
  | short => "short"
  | int => "int"
  | long => "long"

end ArrayType

end ClassListing
