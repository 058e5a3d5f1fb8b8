import ClassListing.Bytes.Reader
import ClassListing.Instruction

namespace ClassListing.Instruction

open Reader

def signed8 : Reader Int8 := do return (← byte).toInt8

def signed16 : Reader Int16 := do return (← word16).toInt16

def signed32 : Reader Int32 := do return (← word32).toInt32

def target (length offset : Nat) (displacement : Int) : Except Fault Nat :=
  let target := offset + displacement
  if 0 ≤ target ∧ target < length then .ok target.toNat
  else .error (.branchOutside offset target)

def branch16 (length offset : Nat) : Reader Nat := do
  check (target length offset (← signed16).toInt)

def branch32 (length offset : Nat) : Reader Nat := do
  check (target length offset (← signed32).toInt)

/-- Refuses a switch whose rows cannot all be there, before any is read. -/
def ensure (size : Nat) (fault : Fault) : Reader Unit := fun c =>
  if c.rest.length < size then .error fault else .ok ((), c)

def tableSwitch (length offset : Nat) (op : Opcode) : Reader Operands := do
  align 4
  let default ← branch32 length offset
  let low ← signed32
  let high ← signed32
  if high < low then fail (.emptySwitchRange offset low high)
  else
    let count := (high.toInt - low.toInt + 1).toNat
    ensure (4 * count) (.truncated op offset)
    let targets ← times count (branch32 length offset)
    return .tableSwitch default low high targets

def lookupSwitch (length offset : Nat) (op : Opcode) : Reader Operands := do
  align 4
  let default ← branch32 length offset
  let size ← signed32
  if size < 0 then fail (.negativeSwitchSize offset size)
  else
    let count := size.toInt.toNat
    ensure (8 * count) (.truncated op offset)
    let cases ← times count do
      let key ← signed32
      let target ← branch32 length offset
      return (key, target)
    return .lookupSwitch default cases

def widened (offset : Nat) : Reader Instruction := do
  let b ← byte
  match Opcode.ofByte? b with
  | none => fail (.unknownOpcode b (offset + 1))
  | some op =>
    match op.shape with
    | .slot => return ⟨offset, op, true, .slot (← word16)⟩
    | .increment => return ⟨offset, op, true, .increment (← word16) (← signed16)⟩
    | _ => fail (.unknownOpcode b (offset + 1))

def afterOpcode (length offset : Nat) (op : Opcode) : Reader Instruction :=
  let plain (operands : Operands) : Instruction := ⟨offset, op, false, operands⟩
  match op.shape with
  | .none => return plain .none
  | .signedByte => return plain (.immediate (← signed8).toInt16)
  | .signedShort => return plain (.immediate (← signed16))
  | .shortIndex => return plain (.constant (← byte).toUInt16)
  | .index => return plain (.constant (← word16))
  | .slot => return plain (.slot (← byte).toUInt16)
  | .increment => return plain (.increment (← byte).toUInt16 (← signed8).toInt16)
  | .branch => return plain (.branch (← branch16 length offset))
  | .wideBranch => return plain (.branch (← branch32 length offset))
  | .tableSwitch => return plain (← tableSwitch length offset op)
  | .lookupSwitch => return plain (← lookupSwitch length offset op)
  | .invokeInterface => do
    let index ← word16
    let count ← byte
    let _ ← byte
    return plain (.invokeInterface index count)
  | .invokeDynamic => do
    let index ← word16
    let _ ← word16
    return plain (.invokeDynamic index)
  | .newArray => do
    let code ← byte
    match ArrayType.ofCode? code with
    | some element => return plain (.newArray element)
    | none => fail (.badArrayType code offset)
  | .multiNewArray => return plain (.multiNewArray (← word16) (← byte))
  | .wide => widened offset

/-- Bytes that run out inside an instruction truncate that instruction. -/
def blame (op : Opcode) (offset : Nat) : Fault → Fault
  | .unexpectedEnd _ _ => .truncated op offset
  | fault => fault

theorem advances_signed8 : signed8.Advances := advances_byte.bind fun _ => advances_pure _

theorem advances_signed16 : signed16.Advances := advances_word16.bind fun _ => advances_pure _

theorem advances_signed32 : signed32.Advances := advances_word32.bind fun _ => advances_pure _

theorem advances_branch16 (length offset : Nat) : (branch16 length offset).Advances :=
  advances_signed16.bind fun _ => advances_check _

theorem advances_branch32 (length offset : Nat) : (branch32 length offset).Advances :=
  advances_signed32.bind fun _ => advances_check _

theorem advances_ensure (size : Nat) (fault : Fault) : (ensure size fault).Advances := by
  intro c a c' h
  simp only [ensure] at h
  split at h
  · cases h
  · cases h
    exact ⟨[], by simp⟩

theorem advances_tableSwitch (length offset : Nat) (op : Opcode) :
    (tableSwitch length offset op).Advances := by
  refine (advances_align 4).bind fun _ => (advances_branch32 length offset).bind fun default => ?_
  refine advances_signed32.bind fun low => advances_signed32.bind fun high => ?_
  split
  · exact advances_fail _
  · exact (advances_ensure _ _).bind fun _ =>
      (advances_times (advances_branch32 length offset) _).bind fun _ => advances_pure _

theorem advances_lookupSwitch (length offset : Nat) (op : Opcode) :
    (lookupSwitch length offset op).Advances := by
  refine (advances_align 4).bind fun _ => (advances_branch32 length offset).bind fun default => ?_
  refine advances_signed32.bind fun size => ?_
  split
  · exact advances_fail _
  · refine (advances_ensure _ _).bind fun _ => (advances_times ?_ _).bind fun _ => advances_pure _
    exact advances_signed32.bind fun _ =>
      (advances_branch32 length offset).bind fun _ => advances_pure _

theorem advances_widened (offset : Nat) : (widened offset).Advances := by
  refine advances_byte.bind fun b => ?_
  split
  · exact advances_fail _
  · split
    · exact advances_word16.bind fun _ => advances_pure _
    · exact advances_word16.bind fun _ => advances_signed16.bind fun _ => advances_pure _
    · exact advances_fail _

theorem advances_afterOpcode (length offset : Nat) (op : Opcode) :
    (afterOpcode length offset op).Advances := by
  simp only [afterOpcode]
  split
  · exact advances_pure _
  · exact advances_signed8.bind fun _ => advances_pure _
  · exact advances_signed16.bind fun _ => advances_pure _
  · exact advances_byte.bind fun _ => advances_pure _
  · exact advances_word16.bind fun _ => advances_pure _
  · exact advances_byte.bind fun _ => advances_pure _
  · exact advances_byte.bind fun _ => advances_signed8.bind fun _ => advances_pure _
  · exact (advances_branch16 length offset).bind fun _ => advances_pure _
  · exact (advances_branch32 length offset).bind fun _ => advances_pure _
  · exact (advances_tableSwitch length offset op).bind fun _ => advances_pure _
  · exact (advances_lookupSwitch length offset op).bind fun _ => advances_pure _
  · exact advances_word16.bind fun _ => advances_byte.bind fun _ => advances_byte.bind fun _ =>
      advances_pure _
  · exact advances_word16.bind fun _ => advances_word16.bind fun _ => advances_pure _
  · refine advances_byte.bind fun _ => ?_
    split
    · exact advances_pure _
    · exact advances_fail _
  · exact advances_word16.bind fun _ => advances_byte.bind fun _ => advances_pure _
  · exact advances_widened offset

def decodeFrom (length offset : Nat) (rest : Bytes) : Except Fault (List Instruction) :=
  match rest with
  | [] => .ok []
  | b :: rest =>
    match Opcode.ofByte? b with
    | none => .error (.unknownOpcode b offset)
    | some op =>
      match h : afterOpcode length offset op ⟨offset + 1, rest⟩ with
      | .error fault => .error (blame op offset fault)
      | .ok (instruction, c) =>
        have : c.rest.length < rest.length + 1 :=
          Nat.lt_succ_of_le ((advances_afterOpcode length offset op).length_le h)
        match decodeFrom length c.pos c.rest with
        | .error fault => .error fault
        | .ok instructions => .ok (instruction :: instructions)
termination_by rest.length

def decode (code : Bytes) : Except Fault (List Instruction) :=
  decodeFrom code.length 0 code

end ClassListing.Instruction
