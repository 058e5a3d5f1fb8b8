import ClassListing.Attribute
import ClassListing.Instruction.Decode
import ClassListing.Pool

namespace ClassListing.Attribute

open Reader

structure Frame where
  name : String
  info : Bytes
  deriving DecidableEq, Repr

def readFrame (pool : Pool) : Reader Frame := do
  let index ← word16
  let name ← check (pool.utf8 index)
  let length ← word32
  let info ← take length.toNat
  return ⟨name, info⟩

def textIndex (pool : Pool) : Reader UInt16 := do
  let index ← word16
  let _ ← check (pool.utf8 index)
  return index

def classIndex (pool : Pool) : Reader UInt16 := do
  let index ← word16
  let _ ← check (pool.className index)
  return index

/-- An index that may be 0 for nothing at all. -/
def optionalIndex {α : Type} (resolve : UInt16 → Except Fault α) : Reader UInt16 := do
  let index ← word16
  if index = 0 then return index
  else
    let _ ← check (resolve index)
    return index

def readHandler (pool : Pool) : Reader Handler := do
  let start ← word16
  let stop ← word16
  let entry ← word16
  let catchType ← optionalIndex pool.className
  return ⟨start, stop, entry, catchType⟩

def readLineNumber : Reader LineNumber := do
  let start ← word16
  let line ← word16
  return ⟨start, line⟩

def readLocalVariable (pool : Pool) : Reader LocalVariable := do
  let start ← word16
  let length ← word16
  let name ← textIndex pool
  let descriptor ← textIndex pool
  let slot ← word16
  return ⟨start, length, name, descriptor, slot⟩

def readInnerClass (pool : Pool) : Reader InnerClass := do
  let inner ← classIndex pool
  let outer ← optionalIndex pool.className
  let name ← optionalIndex pool.utf8
  let access ← word16
  return ⟨inner, outer, name, access⟩

def poolUse? (instruction : Instruction) : Option (Role × UInt16) :=
  match instruction.operands with
  | .constant index =>
    let b := instruction.opcode.byte
    if b = 0x12 ∨ b = 0x13 then some (.loadable, index)
    else if b = 0x14 then some (.wideLoadable, index)
    else if 0xB2 ≤ b ∧ b ≤ 0xB5 then some (.field, index)
    else if b = 0xB6 then some (.method, index)
    else if b = 0xB7 ∨ b = 0xB8 then some (.anyMethod, index)
    else if b = 0xBB ∨ b = 0xBD ∨ b = 0xC0 ∨ b = 0xC1 then some (.classRef, index)
    else none
  | .multiNewArray index _ => some (.classRef, index)
  | .invokeInterface index _ => some (.interfaceMethod, index)
  | .invokeDynamic index => some (.callSite, index)
  | _ => none

def checkUse (pool : Pool) (instruction : Instruction) : Except Fault Unit :=
  match poolUse? instruction with
  | none => return
  | some (role, index) => do
    let _ ← pool.require role index

def maxCodeLength : Nat := 65535

def readCode (pool : Pool) : Reader CodeBody := do
  let maxStack ← word16
  let maxLocals ← word16
  let length ← word32
  if maxCodeLength < length.toNat then fail (.codeTooLong length.toNat)
  else
    let code ← take length.toNat
    let instructions ← check (Instruction.decode code)
    check (instructions.forM (checkUse pool))
    let handlers ← counted (readHandler pool)
    return ⟨maxStack, maxLocals, code, instructions, handlers⟩

def flatBody? (pool : Pool) (name : String) : Option (Reader Attribute) :=
  match name with
  | "ConstantValue" => some do
    let index ← word16
    let _ ← check (pool.require .initialValue index)
    return .constantValue index
  | "Exceptions" => some do return .exceptions (← counted (classIndex pool))
  | "SourceFile" => some do return .sourceFile (← textIndex pool)
  | "Signature" => some do return .signature (← textIndex pool)
  | "LineNumberTable" => some do return .lineNumbers (← counted readLineNumber)
  | "LocalVariableTable" => some do return .localVariables (← counted (readLocalVariable pool))
  | "InnerClasses" => some do return .innerClasses (← counted (readInnerClass pool))
  | "Deprecated" => some do return .deprecated
  | "Synthetic" => some do return .synthetic
  | _ => none

def finish (frame : Frame) (attr : Attribute) (c : Cursor) : Except Fault Attribute :=
  if c.rest.isEmpty then .ok attr
  else .error (.attributeLength frame.name frame.info.length c.pos)

def readCodeHead (pool : Pool) : Reader (CodeBody × Nat) := do
  let body ← readCode pool
  let count ← word16
  return (body, count.toNat)

theorem length_of_readFrame {pool : Pool} {c : Cursor} {frame : Frame} {c' : Cursor}
    (h : readFrame pool c = .ok (frame, c')) :
    c.rest.length = 6 + frame.info.length + c'.rest.length := by
  obtain ⟨index, c₁, h₁, h⟩ := bind_eq_ok.1 h
  obtain ⟨name, c₂, h₂, h⟩ := bind_eq_ok.1 h
  obtain ⟨length, c₃, h₃, h⟩ := bind_eq_ok.1 h
  obtain ⟨info, c₄, h₄, h⟩ := bind_eq_ok.1 h
  obtain ⟨rfl, rfl⟩ := pure_eq_ok.1 h
  obtain ⟨-, rfl⟩ := check_eq_ok.1 h₂
  obtain ⟨-, hrest, -⟩ := take_eq_ok.1 h₄
  have e₁ := length_of_word16 h₁
  have e₃ := length_of_word32 h₃
  simp only [hrest, List.length_append] at e₃
  change c.rest.length = 6 + info.length + c₄.rest.length
  omega

theorem advances_optionalIndex {α : Type} (resolve : UInt16 → Except Fault α) :
    (optionalIndex resolve).Advances := by
  refine advances_word16.bind fun index => ?_
  split
  · exact advances_pure _
  · exact (advances_check _).bind fun _ => advances_pure _

theorem advances_readHandler (pool : Pool) : (readHandler pool).Advances :=
  advances_word16.bind fun _ => advances_word16.bind fun _ => advances_word16.bind fun _ =>
    (advances_optionalIndex _).bind fun _ => advances_pure _

theorem advances_readCode (pool : Pool) : (readCode pool).Advances := by
  refine advances_word16.bind fun _ => advances_word16.bind fun _ => ?_
  refine advances_word32.bind fun _ => ?_
  split
  · exact advances_fail _
  · exact (advances_take _).bind fun _ => (advances_check _).bind fun _ =>
      (advances_check _).bind fun _ => (advances_counted (advances_readHandler pool)).bind fun _ =>
        advances_pure _

theorem length_of_readCodeHead {pool : Pool} {c : Cursor} {head : CodeBody × Nat} {c' : Cursor}
    (h : readCodeHead pool c = .ok (head, c')) : c'.rest.length < c.rest.length := by
  obtain ⟨body, d, hd, h⟩ := bind_eq_ok.1 h
  obtain ⟨count, d', hd', h⟩ := bind_eq_ok.1 h
  obtain ⟨rfl, rfl⟩ := pure_eq_ok.1 h
  have hle := (advances_readCode pool).length_le hd
  have hlt := length_of_word16 hd'
  omega

mutual

def ofFrame (pool : Pool) (frame : Frame) : Except Fault Attribute :=
  if frame.name = "Code" then
    match h : readCodeHead pool (.start frame.info) with
    | .error fault => .error fault
    | .ok ((body, count), c) =>
      have : c.rest.length < frame.info.length := length_of_readCodeHead h
      match readFrames pool count c with
      | .error fault => .error fault
      | .ok (attributes, c) => finish frame (.code body attributes) c
  else
    match flatBody? pool frame.name with
    | none => .ok (.unknown frame.name frame.info)
    | some body =>
      match body (.start frame.info) with
      | .error fault => .error fault
      | .ok (attr, c) => finish frame attr c
termination_by frame.info.length

def readFrames (pool : Pool) (count : Nat) (c : Cursor) :
    Except Fault (List Attribute × Cursor) :=
  match count with
  | 0 => .ok ([], c)
  | count + 1 =>
    match h : readFrame pool c with
    | .error fault => .error fault
    | .ok (frame, c') =>
      have := length_of_readFrame h
      match ofFrame pool frame with
      | .error fault => .error fault
      | .ok attr =>
        match readFrames pool count c' with
        | .error fault => .error fault
        | .ok (attributes, c) => .ok (attr :: attributes, c)
termination_by c.rest.length
decreasing_by all_goals omega

end

end ClassListing.Attribute
