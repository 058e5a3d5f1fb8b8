import ClassListing.Attribute.Reader
import ClassListing.Proofs.Pool.Resolution

namespace ClassListing

namespace Reader

variable {α β : Type}

def Yields (r : Reader α) (P : α → Prop) : Prop := ∀ c a c', r c = .ok (a, c') → P a

theorem yields_pure {P : α → Prop} {a : α} (h : P a) : (pure a : Reader α).Yields P := by
  intro c b c' hb
  obtain ⟨rfl, -⟩ := pure_eq_ok.1 hb
  exact h

theorem yields_fail (fault : Fault) (P : α → Prop) : (fail fault : Reader α).Yields P := by
  intro c a c' h
  simp [fail] at h

theorem Yields.bind {r : Reader α} {f : α → Reader β} {Q : α → Prop} {P : β → Prop}
    (hr : r.Yields Q) (hf : ∀ a, Q a → (f a).Yields P) : (r >>= f).Yields P := by
  intro c b c' h
  obtain ⟨a, d, ha, hb⟩ := bind_eq_ok.1 h
  exact hf a (hr c a d ha) d b c' hb

theorem yields_then {r : Reader α} {f : α → Reader β} {P : β → Prop}
    (hf : ∀ a, (f a).Yields P) : (r >>= f).Yields P :=
  Yields.bind (fun _ _ _ _ => trivial) fun a (_ : True) => hf a

end Reader

namespace Role

def kinds (role : Role) : List ConstantKind := ConstantKind.all.filter role.admits

theorem admits_iff_mem {role : Role} {kinds : List ConstantKind} (h : role.kinds = kinds)
    (kind : ConstantKind) : role.admits kind = true ↔ kind ∈ kinds := by
  rw [← h, Role.kinds, List.mem_filter]
  constructor
  · intro hk
    refine ⟨?_, hk⟩
    cases kind with
    | member k => cases k <;> decide
    | _ => decide
  · exact And.right

end Role

def OperandShape.poolBytes : OperandShape → List UInt8
  | .shortIndex => [0x12]
  | .index => [0x13, 0x14, 0xB2, 0xB3, 0xB4, 0xB5, 0xB6, 0xB7, 0xB8, 0xBB, 0xBD, 0xC0, 0xC1]
  | .invokeInterface => [0xB9]
  | .invokeDynamic => [0xBA]
  | .multiNewArray => [0xC5]
  | _ => []

theorem OperandShape.mem_poolBytes {b : UInt8} {shape : OperandShape} (h : ofByte b = shape)
    (hpool : shape.poolBytes ≠ []) : b ∈ shape.poolBytes := by
  have hall : ∀ n < 256, (ofByte (UInt8.ofNat n)).poolBytes ≠ [] →
      UInt8.ofNat n ∈ (ofByte (UInt8.ofNat n)).poolBytes := by decide +kernel
  have hb := hall b.toNat b.toNat_lt
  rw [UInt8.ofNat_toNat, h] at hb
  exact hb hpool

namespace Operands

def shapes : Operands → List OperandShape
  | none => [.none]
  | immediate _ => [.signedByte, .signedShort]
  | constant _ => [.shortIndex, .index]
  | slot _ => [.slot]
  | increment _ _ => [.increment]
  | branch _ => [.branch, .wideBranch]
  | tableSwitch _ _ _ _ => [.tableSwitch]
  | lookupSwitch _ _ => [.lookupSwitch]
  | invokeInterface _ _ => [.invokeInterface]
  | invokeDynamic _ => [.invokeDynamic]
  | newArray _ => [.newArray]
  | multiNewArray _ _ => [.multiNewArray]

def poolIndex? : Operands → Option UInt16
  | constant index | invokeInterface index _ | invokeDynamic index | multiNewArray index _ => some index
  | _ => .none

theorem poolBytes_of_mem_shapes {operands : Operands} {shape : OperandShape}
    (h : shape ∈ operands.shapes) (hindex : operands.poolIndex? = .none) : shape.poolBytes = [] := by
  cases operands with
  | constant | invokeInterface | invokeDynamic | multiNewArray => cases hindex
  | immediate | branch =>
      rcases List.mem_pair.1 h with rfl | rfl
      · rfl
      · rfl
  | _ =>
      obtain rfl := List.mem_singleton.1 h
      rfl

end Operands

namespace Instruction

open Reader

def WellShaped (i : Instruction) : Prop := i.opcode.shape ∈ i.operands.shapes

theorem yields_widened (offset : Nat) : (widened offset).Yields WellShaped := by
  refine yields_then fun b => ?_
  split
  next => exact yields_fail _ _
  next op _ =>
    split
    next h => exact yields_then fun _ => yields_pure (by simp [WellShaped, Operands.shapes, h])
    next h =>
      exact yields_then fun _ => yields_then fun _ =>
        yields_pure (by simp [WellShaped, Operands.shapes, h])
    next => exact yields_fail _ _

theorem yields_tableSwitch (length offset : Nat) (op : Opcode) :
    (tableSwitch length offset op).Yields fun operands => operands.shapes = [.tableSwitch] := by
  refine yields_then fun _ => yields_then fun _ => yields_then fun _ => yields_then fun _ => ?_
  split
  next => exact yields_fail _ _
  next => exact yields_then fun _ => yields_then fun _ => yields_pure rfl

theorem yields_lookupSwitch (length offset : Nat) (op : Opcode) :
    (lookupSwitch length offset op).Yields fun operands => operands.shapes = [.lookupSwitch] := by
  refine yields_then fun _ => yields_then fun _ => yields_then fun _ => ?_
  split
  next => exact yields_fail _ _
  next => exact yields_then fun _ => yields_then fun _ => yields_pure rfl

theorem yields_afterOpcode (length offset : Nat) (op : Opcode) :
    (afterOpcode length offset op).Yields WellShaped := by
  simp only [afterOpcode]
  cases h : op.shape with
  | none => exact yields_pure (by simp [WellShaped, Operands.shapes, h])
  | signedByte | signedShort | shortIndex | index | slot | branch | wideBranch =>
      exact yields_then fun _ => yields_pure (by simp [WellShaped, Operands.shapes, h])
  | increment | invokeDynamic | multiNewArray =>
      exact yields_then fun _ => yields_then fun _ =>
        yields_pure (by simp [WellShaped, Operands.shapes, h])
  | invokeInterface =>
      exact yields_then fun _ => yields_then fun _ => yields_then fun _ =>
        yields_pure (by simp [WellShaped, Operands.shapes, h])
  | tableSwitch =>
      exact (yields_tableSwitch length offset op).bind fun operands hop =>
        yields_pure (by simp [WellShaped, hop, h])
  | lookupSwitch =>
      exact (yields_lookupSwitch length offset op).bind fun operands hop =>
        yields_pure (by simp [WellShaped, hop, h])
  | newArray =>
      refine yields_then fun code => ?_
      split
      next => exact yields_pure (by simp [WellShaped, Operands.shapes, h])
      next => exact yields_fail _ _
  | wide => exact yields_widened offset

theorem wellShaped_of_decodeFrom {length offset : Nat} {rest : Bytes} {is : List Instruction}
    (h : decodeFrom length offset rest = .ok is) : ∀ i ∈ is, i.WellShaped := by
  fun_induction decodeFrom length offset rest generalizing is with
  | case1 =>
      obtain rfl := Except.ok.inj h
      simp
  | case5 offset b rest op hop i c hi _ is' his ih =>
      obtain rfl := Except.ok.inj h
      rw [List.forall_mem_cons]
      exact ⟨yields_afterOpcode length offset op _ _ _ hi, ih his⟩
  | case2 | case3 | case4 => cases h

theorem wellShaped_of_decode {code : Bytes} {is : List Instruction} (h : decode code = .ok is) :
    ∀ i ∈ is, i.WellShaped :=
  wellShaped_of_decodeFrom h

def operandKinds (mnemonic : String) : List ConstantKind :=
  match mnemonic with
  | "ldc" | "ldc_w" =>
    [.integer, .float, .classRef, .string, .methodHandle, .methodType, .dynamic]
  | "ldc2_w" => [.long, .double, .dynamic]
  | "getstatic" | "putstatic" | "getfield" | "putfield" => [.member .field]
  | "invokevirtual" => [.member .method]
  | "invokespecial" | "invokestatic" => [.member .method, .member .interfaceMethod]
  | "invokeinterface" => [.member .interfaceMethod]
  | "invokedynamic" => [.invokeDynamic]
  | "new" | "anewarray" | "checkcast" | "instanceof" | "multianewarray" => [.classRef]
  | _ => []

/-- The entry of the pool among the operands is of a kind that the instruction may name, and there
is one if there are such kinds. -/
def References (pool : Pool) (i : Instruction) : Prop :=
  match i.operands.poolIndex? with
  | some index => pool.HasKind (operandKinds i.opcode.mnemonic) index
  | none => operandKinds i.opcode.mnemonic = []

instance (pool : Pool) (i : Instruction) : Decidable (i.References pool) :=
  match h : i.operands.poolIndex? with
  | some index =>
    decidable_of_iff (pool.HasKind (operandKinds i.opcode.mnemonic) index) (by rw [References, h])
  | none => decidable_of_iff (operandKinds i.opcode.mnemonic = []) (by rw [References, h])

theorem operandKinds_eq_nil {op : Opcode} (h : op.shape.poolBytes = []) :
    operandKinds op.mnemonic = [] := by
  have hall : ∀ n : Fin 202, (OperandShape.ofByte (UInt8.ofNat n)).poolBytes = [] →
      operandKinds (mnemonics.get n) = [] := by decide +kernel
  refine hall ⟨op.byte.toNat, op.assigned⟩ ?_
  rw [UInt8.ofNat_toNat]
  exact h

open Attribute in
/-- The check of an instruction knows the opcodes with an entry of the pool among their operands,
and asks each of them for the right kinds. -/
theorem poolUse?_of_wellShaped {i : Instruction} {index : UInt16} (h : i.WellShaped)
    (hindex : i.operands.poolIndex? = some index) :
    ∃ role, poolUse? i = some (role, index) ∧
      ∀ kind, role.admits kind = true ↔ kind ∈ operandKinds i.opcode.mnemonic := by
  obtain ⟨offset, ⟨b, hb⟩, wide, operands⟩ := i
  cases operands with
  | constant other =>
      obtain rfl : other = index := Option.some.inj hindex
      rcases List.mem_pair.1 h with hshape | hshape
      · obtain rfl := List.mem_singleton.1 (OperandShape.mem_poolBytes hshape (by decide))
        exact ⟨_, rfl, Role.admits_iff_mem rfl⟩
      · have hbyte := OperandShape.mem_poolBytes hshape (by decide)
        simp only [OperandShape.poolBytes, List.mem_cons, List.not_mem_nil, or_false] at hbyte
        rcases hbyte with rfl | rfl | rfl | rfl | rfl | rfl | rfl | rfl | rfl | rfl | rfl | rfl | rfl
        all_goals exact ⟨_, rfl, Role.admits_iff_mem rfl⟩
  | invokeInterface other | invokeDynamic other | multiNewArray other =>
      obtain rfl : other = index := Option.some.inj hindex
      have hshape := List.mem_singleton.1 h
      obtain rfl := List.mem_singleton.1 (OperandShape.mem_poolBytes hshape (by decide))
      exact ⟨_, rfl, Role.admits_iff_mem rfl⟩
  | _ => cases hindex

open Attribute in
theorem checkUse_eq_ok {pool : Pool} {i : Instruction} (h : i.WellShaped) :
    checkUse pool i = .ok () ↔ i.References pool := by
  rw [checkUse, References]
  cases hindex : i.operands.poolIndex? with
  | none =>
      have huse : poolUse? i = none := by
        rw [poolUse?]
        cases hop : i.operands with
        | constant | invokeInterface | invokeDynamic | multiNewArray =>
            rw [hop] at hindex
            cases hindex
        | _ => rfl
      simp [huse, operandKinds_eq_nil (Operands.poolBytes_of_mem_shapes h hindex)]
  | some index =>
      obtain ⟨role, huse, hrole⟩ := poolUse?_of_wellShaped h hindex
      simp only [huse]
      rw [← Pool.succeeds_require hrole, Checks.bind_eq_ok]
      exact exists_congr fun constant => and_iff_left rfl

end Instruction

end ClassListing
