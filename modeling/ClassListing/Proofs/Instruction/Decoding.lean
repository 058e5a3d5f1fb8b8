import ClassListing.Proofs.Instruction.Encoding

namespace ClassListing

open Layout

namespace Layout

theorem signed_toInt {width : Nat} (x : BitVec (8 * width)) :
    signed width x.toInt = number width x.toNat := by
  have hpow : (256 : Int) ^ width = ((2 ^ (8 * width) : Nat) : Int) := by
    rw [Nat.pow_mul, Int.natCast_pow]
    rfl
  rw [signed, hpow, BitVec.toInt_eq_toNat_bmod, Int.bmod_emod, ← Int.natCast_emod,
    Int.toNat_natCast, Nat.mod_eq_of_lt x.isLt]

theorem fitsSigned_iff {width : Nat} (hw : 0 < width) {n : Int} :
    FitsSigned width n ↔ ∃ x : BitVec (8 * width), x.toInt = n := by
  constructor
  · rintro ⟨hle, hlt⟩
    refine ⟨BitVec.ofInt (8 * width) n, BitVec.toInt_ofInt_eq_self (by omega) hle hlt⟩
  · rintro ⟨x, rfl⟩
    exact ⟨BitVec.le_toInt x, BitVec.toInt_lt⟩

end Layout

namespace Reader

variable {α β : Type}

/-- As `Reads`, from one position on. -/
def ReadsAt (r : Reader α) (pos : Nat) (L : α → Set Bytes) : Prop :=
  ∀ rest a c', r ⟨pos, rest⟩ = .ok (a, c') ↔
    ∃ bytes ∈ L a, rest = bytes ++ c'.rest ∧ c'.pos = pos + bytes.length

theorem Reads.at {r : Reader α} {L : α → Set Bytes} (hr : r.Reads L) (pos : Nat) :
    r.ReadsAt pos L := by
  intro rest a c'
  exact hr ⟨pos, rest⟩ a c'

theorem ReadsAt.congr {r : Reader α} {pos : Nat} {L M : α → Set Bytes} (hr : r.ReadsAt pos L)
    (h : ∀ a bytes, bytes ∈ L a ↔ bytes ∈ M a) : r.ReadsAt pos M := by
  have hLM : L = M := funext fun a => Set.ext (h a)
  exact hLM ▸ hr

theorem ReadsAt.map {r : Reader α} {pos : Nat} {L : α → Set Bytes} (hr : r.ReadsAt pos L)
    (f : α → β) :
    (do return f (← r) : Reader β).ReadsAt pos fun b => {bytes | ∃ a, f a = b ∧ bytes ∈ L a} := by
  intro rest b c'
  rw [bind_eq_ok]
  constructor
  · rintro ⟨a, d, ha, hb⟩
    obtain ⟨rfl, rfl⟩ := pure_eq_ok.1 hb
    obtain ⟨bytes, hbytes, hrest⟩ := (hr rest a d).1 ha
    exact ⟨bytes, ⟨a, rfl, hbytes⟩, hrest⟩
  · rintro ⟨bytes, ⟨a, rfl, hbytes⟩, hrest⟩
    exact ⟨a, c', (hr rest a c').2 ⟨bytes, hbytes, hrest⟩, rfl⟩

theorem align_bind (r : Reader α) (pos : Nat) (rest : Bytes) :
    (align 4 >>= fun _ => r) ⟨pos, rest⟩ =
      (take ((4 - pos % 4) % 4) >>= fun _ => r) ⟨pos, rest⟩ := by
  simp only [bind, Reader.bind, align]
  cases take ((4 - pos % 4) % 4) ⟨pos, rest⟩ <;> rfl

theorem readsAt_align {r : Reader α} {L : α → Set Bytes} (hr : r.Reads L) (pos : Nat) :
    (align 4 >>= fun _ => r).ReadsAt pos fun a =>
      {bytes | ∃ padding : Bytes, (padding.length < 4 ∧ (pos + padding.length) % 4 = 0) ∧
        ∃ t ∈ L a, bytes = padding ++ t} := by
  intro rest a c'
  rw [align_bind, ((reads_take _).bind fun _ => hr).at pos rest a c']
  apply exists_congr
  intro bytes
  apply and_congr_left'
  constructor
  · rintro ⟨padding, _, ⟨rfl, hlen⟩, t, ht, rfl⟩
    exact ⟨_, by omega, t, ht, rfl⟩
  · rintro ⟨padding, hpadding, t, ht, rfl⟩
    exact ⟨padding, padding, ⟨rfl, by omega⟩, t, ht, rfl⟩

end Reader

theorem ArrayType.ofCode?_eq_some {code : UInt8} {element : ArrayType} :
    ofCode? code = some element ↔ element.code = code := by
  constructor
  · intro h
    simp only [ofCode?] at h
    split_ifs at h <;> cases h <;> subst_vars <;> rfl
  · rintro rfl
    cases element <;> rfl

theorem OperandShape.ofByte_eq_wide {b : UInt8} : ofByte b = .wide ↔ b = 0xC4 := by
  have hall : ∀ n < 256, ofByte (UInt8.ofNat n) = .wide ↔ UInt8.ofNat n = 0xC4 := by decide +kernel
  have hb := hall b.toNat b.toNat_lt
  rwa [UInt8.ofNat_toNat] at hb

theorem Opcode.eq_of_byte_eq {a b : Opcode} (h : a.byte = b.byte) : a = b := by
  cases a
  cases b
  cases h
  rfl

theorem Opcode.ofByte?_byte (op : Opcode) : ofByte? op.byte = some op := by
  rw [ofByte?, dif_pos op.assigned]

theorem Opcode.byte_of_ofByte? {b : UInt8} {op : Opcode} (h : ofByte? b = some op) :
    op.byte = b := by
  rw [ofByte?] at h
  split at h
  · cases h
    rfl
  · cases h

namespace Instruction

open Reader
open Operands (Reaches distance)

variable {length offset : Nat}

theorem reads_signed {W X : Type} {r : Reader W} (width : Nat) (bits : W → BitVec (8 * width))
    {toInt : X → Int} {f : W → X} (hr : r.Reads fun w => {number width (bits w).toNat})
    (hf : Function.Surjective f) (hint : ∀ w, toInt (f w) = (bits w).toInt) :
    (do return f (← r) : Reader X).Reads fun x => {signed width (toInt x)} := by
  refine (hr.map f).congr fun x bytes => ?_
  obtain ⟨w, rfl⟩ := hf x
  rw [hint, signed_toInt]
  constructor
  · rintro ⟨v, hv, hbytes⟩
    have hw : (bits v).toInt = (bits w).toInt := by rw [← hint, ← hint, hv]
    rw [BitVec.toInt_inj.1 hw] at hbytes
    exact hbytes
  · intro hbytes
    exact ⟨w, rfl, hbytes⟩

theorem number_one (b : UInt8) : number 1 b.toNat = [b] := by
  simp [number]

theorem reads_signed8 : signed8.Reads fun x => {signed 1 x.toInt} := by
  have hbyte : byte.Reads fun b => {number 1 b.toBitVec.toNat} := by
    refine reads_byte.congr fun b bytes => ?_
    rw [UInt8.toNat_toBitVec, number_one]
  exact reads_signed 1 UInt8.toBitVec hbyte (fun x => ⟨x.toUInt8, rfl⟩) fun _ => rfl

theorem reads_signed16 : signed16.Reads fun x => {signed 2 x.toInt} :=
  reads_signed 2 UInt16.toBitVec reads_word16 (fun x => ⟨x.toUInt16, rfl⟩) fun _ => rfl

theorem reads_signed32 : signed32.Reads fun x => {signed 4 x.toInt} :=
  reads_signed 4 UInt32.toBitVec reads_word32 (fun x => ⟨x.toUInt32, rfl⟩) fun _ => rfl

theorem target_eq_ok {displacement : Int} {t : Nat} :
    target length offset displacement = .ok t ↔ t < length ∧ displacement = t - offset := by
  rw [target]
  split
  next h =>
    rw [Except.ok.injEq]
    omega
  next h =>
    simp only [reduceCtorEq, false_iff]
    omega

theorem reads_branch {X : Type} {r : Reader X} {toInt : X → Int} {width : Nat}
    (hr : r.Reads fun x => {signed width (toInt x)})
    (hfits : ∀ n, FitsSigned width n ↔ ∃ x, toInt x = n) :
    (do check (target length offset (toInt (← r))) : Reader Nat).Reads
      (only (Reaches length offset width) (distance width offset)) := by
  refine (hr.bind fun x => reads_check _).congr fun t bytes => ?_
  constructor
  · rintro ⟨x, _, rfl, _, ⟨htarget, rfl⟩, rfl⟩
    obtain ⟨hlt, hx⟩ := target_eq_ok.1 htarget
    refine ⟨⟨hlt, (hfits _).2 ⟨x, hx⟩⟩, ?_⟩
    rw [List.append_nil, distance, hx]
  · rintro ⟨⟨hlt, hfit⟩, rfl⟩
    obtain ⟨x, hx⟩ := (hfits _).1 hfit
    exact ⟨x, _, rfl, [], ⟨target_eq_ok.2 ⟨hlt, hx⟩, rfl⟩, by rw [hx, List.append_nil, distance]⟩

theorem fitsSigned_two {n : Int} : FitsSigned 2 n ↔ ∃ x : Int16, x.toInt = n := by
  rw [fitsSigned_iff (by decide)]
  exact ⟨fun ⟨x, hx⟩ => ⟨.ofBitVec x, hx⟩, fun ⟨x, hx⟩ => ⟨x.toBitVec, hx⟩⟩

theorem fitsSigned_four {n : Int} : FitsSigned 4 n ↔ ∃ x : Int32, x.toInt = n := by
  rw [fitsSigned_iff (by decide)]
  exact ⟨fun ⟨x, hx⟩ => ⟨.ofBitVec x, hx⟩, fun ⟨x, hx⟩ => ⟨x.toBitVec, hx⟩⟩

theorem reads_branch16 :
    (branch16 length offset).Reads (only (Reaches length offset 2) (distance 2 offset)) :=
  reads_branch reads_signed16 fun _ => fitsSigned_two

theorem reads_branch32 :
    (branch32 length offset).Reads (only (Reaches length offset 4) (distance 4 offset)) :=
  reads_branch reads_signed32 fun _ => fitsSigned_four

theorem ensure_bind_of_lt {α : Type} {r : Reader α} {size : Nat} {fault : Fault} {c : Cursor}
    (h : c.rest.length < size) : (ensure size fault >>= fun _ => r) c = .error fault := by
  simp only [bind, Reader.bind, ensure, if_pos h]

theorem ensure_bind_of_not_lt {α : Type} {r : Reader α} {size : Nat} {fault : Fault} {c : Cursor}
    (h : ¬c.rest.length < size) : (ensure size fault >>= fun _ => r) c = r c := by
  simp only [bind, Reader.bind, ensure, if_neg h]

/-- Rows that are there if there is room for them: the check of the room refuses nothing more. -/
theorem reads_ensured {α : Type} {r : Reader α} {L : α → Set Bytes} {size : Nat} {fault : Fault}
    (hr : r.Reads L) (hsize : ∀ a, ∀ bytes ∈ L a, size ≤ bytes.length) :
    (ensure size fault >>= fun _ => r).Reads L := by
  intro c a c'
  rw [← hr c a c']
  by_cases hroom : c.rest.length < size
  · have hnone : ¬r c = .ok (a, c') := by
      intro h
      obtain ⟨bytes, hbytes, hrest, -⟩ := (hr c a c').1 h
      have hle := hsize a bytes hbytes
      rw [hrest, List.length_append] at hroom
      omega
    rw [ensure_bind_of_lt hroom]
    exact iff_of_false (by simp) hnone
  · rw [ensure_bind_of_not_lt hroom]

theorem reads_rows {α : Type} {item : Reader α} {P : α → Prop} {row : α → Bytes}
    (h : item.Reads (only P row)) (n : Nat) :
    (times n item).Reads
      (only (fun as => as.length = n ∧ ∀ a ∈ as, P a) fun as => as.flatMap row) := by
  refine (reads_times h n).congr fun as bytes => ?_
  constructor
  · rintro ⟨hlen, hbytes⟩
    obtain ⟨hall, hbytes⟩ := mem_concat_and.1 hbytes
    exact ⟨⟨hlen, hall⟩, mem_concat_singleton.1 hbytes⟩
  · rintro ⟨⟨hlen, hall⟩, hbytes⟩
    exact ⟨hlen, mem_concat_and.2 ⟨hall, mem_concat_singleton.2 hbytes⟩⟩

theorem length_flatMap_of_width {α : Type} {row : α → Bytes} {width : Nat}
    (h : ∀ a, (row a).length = width) (rows : List α) :
    (rows.flatMap row).length = width * rows.length := by
  rw [List.length_flatMap]
  simp [h, Nat.mul_comm]

/-- The rows of a switch, all of one width, which make up its operands. -/
theorem reads_switchRows {α : Type} {item : Reader α} {P : α → Prop} {row : α → Bytes}
    {width : Nat} {fault : Fault} (h : item.Reads (only P row))
    (hwidth : ∀ a, (row a).length = width) (n : Nat) (f : List α → Operands) :
    (do
      ensure (width * n) fault
      let rows ← times n item
      return f rows : Reader Operands).Reads fun operands =>
        {bytes | ∃ rows, f rows = operands ∧ (rows.length = n ∧ ∀ a ∈ rows, P a) ∧
          bytes = rows.flatMap row} := by
  apply reads_ensured ((reads_rows h n).map f)
  rintro operands bytes ⟨rows, -, ⟨hlen, -⟩, rfl⟩
  rw [length_flatMap_of_width hwidth, hlen]

theorem length_distance (width offset target : Nat) :
    (distance width offset target).length = width :=
  length_number _ _

theorem reads_tableRows (op : Opcode) (default : Nat) (low high : Int32) :
    (if high < low then fail (.emptySwitchRange offset low high)
    else do
      let count := (high.toInt - low.toInt + 1).toNat
      ensure (4 * count) (.truncated op offset)
      let targets ← times count (branch32 length offset)
      return .tableSwitch default low high targets : Reader Operands).Reads fun operands =>
        {bytes | ∃ targets, .tableSwitch default low high targets = operands ∧
          (low.toInt ≤ high.toInt ∧ (targets.length : Int) = high.toInt - low.toInt + 1 ∧
            ∀ target ∈ targets, Reaches length offset 4 target) ∧
          bytes = targets.flatMap (distance 4 offset)} := by
  by_cases hlt : high < low
  · rw [if_pos hlt]
    rw [Int32.lt_iff_toInt_lt] at hlt
    refine (reads_fail _).congr fun operands bytes => ⟨False.elim, ?_⟩
    rintro ⟨targets, -, ⟨hle, -⟩, -⟩
    omega
  · rw [if_neg hlt]
    rw [Int32.lt_iff_toInt_lt] at hlt
    refine (reads_switchRows reads_branch32 (length_distance 4 offset) _ _).congr
      fun operands bytes => ?_
    constructor
    · rintro ⟨targets, hop, ⟨hlen, hall⟩, hbytes⟩
      exact ⟨targets, hop, ⟨by omega, by omega, hall⟩, hbytes⟩
    · rintro ⟨targets, hop, ⟨hle, hlen, hall⟩, hbytes⟩
      exact ⟨targets, hop, ⟨by omega, hall⟩, hbytes⟩

theorem readsAt_tableSwitch (op : Opcode) :
    (tableSwitch length offset op).ReadsAt (offset + 1) fun operands =>
      {bytes | operands.Spelled length offset .tableSwitch bytes} := by
  refine (readsAt_align (reads_branch32.bind fun default => reads_signed32.bind fun low =>
    reads_signed32.bind fun high => reads_tableRows op default low high) (offset + 1)).congr
    fun operands bytes => ?_
  constructor
  · rintro ⟨padding, hpadding, _, ⟨default, _, ⟨hdefault, rfl⟩, _, ⟨low, _, rfl, _, ⟨high, _, rfl, _,
      ⟨targets, rfl, ⟨hrange, hcount, htargets⟩, rfl⟩, rfl⟩, rfl⟩, rfl⟩, rfl⟩
    exact .tableSwitch hpadding hdefault hrange hcount htargets
  · intro h
    cases h with
    | tableSwitch hpadding hdefault hrange hcount htargets =>
        exact ⟨_, hpadding, _, ⟨_, _, ⟨hdefault, rfl⟩, _, ⟨_, _, rfl, _, ⟨_, _, rfl, _,
          ⟨_, rfl, ⟨hrange, hcount, htargets⟩, rfl⟩, rfl⟩, rfl⟩, rfl⟩, rfl⟩

theorem reads_case :
    (do
      let key ← signed32
      let target ← branch32 length offset
      return (key, target) : Reader (Int32 × Nat)).Reads
      (only (fun case => Reaches length offset 4 case.2)
        fun case => signed 4 case.1.toInt ++ distance 4 offset case.2) := by
  refine (reads_signed32.bind fun key => reads_branch32.map fun target => (key, target)).congr
    fun case bytes => ?_
  constructor
  · rintro ⟨key, _, rfl, _, ⟨target, rfl, htarget, rfl⟩, rfl⟩
    exact ⟨htarget, rfl⟩
  · rintro ⟨htarget, rfl⟩
    exact ⟨case.1, _, rfl, _, ⟨case.2, rfl, htarget, rfl⟩, rfl⟩

theorem length_case (case : Int32 × Nat) :
    (signed 4 case.1.toInt ++ distance 4 offset case.2).length = 8 := by
  rw [List.length_append, length_distance, signed, length_number]

theorem reads_lookupRows (op : Opcode) (default : Nat) (size : Int32) :
    (if size < 0 then fail (.negativeSwitchSize offset size)
    else do
      let count := size.toInt.toNat
      ensure (8 * count) (.truncated op offset)
      let cases ← times count do
        let key ← signed32
        let target ← branch32 length offset
        return (key, target)
      return .lookupSwitch default cases : Reader Operands).Reads fun operands =>
        {bytes | ∃ cases, .lookupSwitch default cases = operands ∧
          ((cases.length : Int) = size.toInt ∧ ∀ case ∈ cases, Reaches length offset 4 case.2) ∧
          bytes = cases.flatMap fun case => signed 4 case.1.toInt ++ distance 4 offset case.2} := by
  by_cases hlt : size < 0
  · rw [if_pos hlt]
    rw [Int32.lt_iff_toInt_lt, Int32.toInt_zero] at hlt
    refine (reads_fail _).congr fun operands bytes => ⟨False.elim, ?_⟩
    rintro ⟨cases, -, ⟨hlen, -⟩, -⟩
    omega
  · rw [if_neg hlt]
    rw [Int32.lt_iff_toInt_lt, Int32.toInt_zero] at hlt
    refine (reads_switchRows reads_case length_case _ _).congr fun operands bytes => ?_
    constructor
    · rintro ⟨cases, hop, ⟨hlen, hall⟩, hbytes⟩
      exact ⟨cases, hop, ⟨by omega, hall⟩, hbytes⟩
    · rintro ⟨cases, hop, ⟨hlen, hall⟩, hbytes⟩
      exact ⟨cases, hop, ⟨by omega, hall⟩, hbytes⟩

theorem readsAt_lookupSwitch (op : Opcode) :
    (lookupSwitch length offset op).ReadsAt (offset + 1) fun operands =>
      {bytes | operands.Spelled length offset .lookupSwitch bytes} := by
  refine (readsAt_align (reads_branch32.bind fun default => reads_signed32.bind fun size =>
    reads_lookupRows op default size) (offset + 1)).congr fun operands bytes => ?_
  constructor
  · rintro ⟨padding, hpadding, _, ⟨default, _, ⟨hdefault, rfl⟩, _, ⟨size, _, rfl, _,
      ⟨cases, rfl, ⟨hlen, htargets⟩, rfl⟩, rfl⟩, rfl⟩, rfl⟩
    have hlt := size.toInt_lt
    rw [← hlen] at hlt ⊢
    exact .lookupSwitch hpadding hdefault (by omega) htargets
  · intro h
    cases h with
    | @lookupSwitch padding default cases hpadding hdefault hcount htargets =>
        obtain ⟨size, hsize⟩ := fitsSigned_four.1 (show FitsSigned 4 cases.length by
          constructor <;> omega)
        exact ⟨_, hpadding, _, ⟨_, _, ⟨hdefault, rfl⟩, _, ⟨size, _, rfl, _,
          ⟨_, rfl, ⟨hsize.symm, htargets⟩, rfl⟩, by rw [hsize]⟩, rfl⟩, rfl⟩

theorem exists_toInt16 {value : Int16} (h : FitsSigned 1 value.toInt) :
    ∃ x : Int8, x.toInt16 = value := by
  obtain ⟨x, hx⟩ := (fitsSigned_iff (by decide)).1 h
  refine ⟨.ofBitVec x, Int16.toInt_inj.1 ?_⟩
  rw [Int8.toInt_toInt16]
  exact hx

theorem fitsSigned_toInt16 (x : Int8) : FitsSigned 1 x.toInt16.toInt := by
  rw [Int8.toInt_toInt16]
  exact (fitsSigned_iff (by decide)).2 ⟨x.toBitVec, rfl⟩

theorem exists_toUInt16 {index : UInt16} (h : index.toNat < 256) :
    ∃ b : UInt8, b.toUInt16 = index := by
  refine ⟨index.toUInt8, UInt16.toNat_inj.1 ?_⟩
  rw [UInt8.toNat_toUInt16, UInt16.toNat_toUInt8, Nat.mod_eq_of_lt h]

theorem toNat_toUInt16_lt (b : UInt8) : b.toUInt16.toNat < 256 := by
  rw [UInt8.toNat_toUInt16]
  exact b.toNat_lt

theorem number_one_toUInt16 (b : UInt8) : number 1 b.toUInt16.toNat = [b] := by
  rw [UInt8.toNat_toUInt16, number_one]

/-- The bytes of operands of a shape, of which `f` makes an instruction. -/
def spellings (length offset : Nat) (shape : OperandShape) (f : Operands → Instruction)
    (i : Instruction) : Set Bytes :=
  {bytes | ∃ operands, f operands = i ∧ operands.Spelled length offset shape bytes}

variable {f : Operands → Instruction}

theorem readsAt_shape {α : Type} {r : Reader Instruction} {P : α → Prop} {L : α → Bytes}
    {g : α → Operands} {shape : OperandShape}
    (hr : r.Reads fun i => {bytes | ∃ a, f (g a) = i ∧ bytes ∈ only P L a})
    (hspelled : ∀ a, P a → (g a).Spelled length offset shape (L a))
    (hinv : ∀ operands bytes, operands.Spelled length offset shape bytes →
      ∃ a, g a = operands ∧ P a ∧ L a = bytes) :
    r.ReadsAt (offset + 1) (spellings length offset shape f) := by
  refine (hr.at _).congr fun i bytes => ?_
  constructor
  · rintro ⟨a, hi, ha, rfl⟩
    exact ⟨g a, hi, hspelled a ha⟩
  · rintro ⟨operands, hi, h⟩
    obtain ⟨a, rfl, ha, rfl⟩ := hinv operands bytes h
    exact ⟨a, hi, ha, rfl⟩

theorem readsAt_total {α : Type} {r : Reader Instruction} {L : α → Bytes} {g : α → Operands}
    {shape : OperandShape}
    (hr : r.Reads fun i => {bytes | ∃ a, f (g a) = i ∧ bytes ∈ ({L a} : Set Bytes)})
    (hspelled : ∀ a, (g a).Spelled length offset shape (L a))
    (hinv : ∀ operands bytes, operands.Spelled length offset shape bytes →
      ∃ a, g a = operands ∧ L a = bytes) :
    r.ReadsAt (offset + 1) (spellings length offset shape f) := by
  refine (hr.at _).congr fun i bytes => ?_
  constructor
  · rintro ⟨a, hi, rfl⟩
    exact ⟨g a, hi, hspelled a⟩
  · rintro ⟨operands, hi, h⟩
    obtain ⟨a, rfl, rfl⟩ := hinv operands bytes h
    exact ⟨a, hi, rfl⟩

theorem readsAt_signedByte :
    (do return f (.immediate (← signed8).toInt16) : Reader Instruction).ReadsAt (offset + 1)
      (spellings length offset .signedByte f) := by
  apply readsAt_total (reads_signed8.map _)
  · intro x
    rw [← Int8.toInt_toInt16]
    exact .signedByte (fitsSigned_toInt16 x)
  · intro operands bytes h
    cases h with
    | signedByte h =>
        obtain ⟨x, rfl⟩ := exists_toInt16 h
        exact ⟨x, rfl, by rw [Int8.toInt_toInt16]⟩

theorem readsAt_byteIndex {g : UInt16 → Operands} {shape : OperandShape}
    (hspelled : ∀ index, index.toNat < 256 →
      (g index).Spelled length offset shape (number 1 index.toNat))
    (hinv : ∀ operands bytes, operands.Spelled length offset shape bytes →
      ∃ index, index.toNat < 256 ∧ g index = operands ∧ number 1 index.toNat = bytes) :
    (do return f (g (← byte).toUInt16) : Reader Instruction).ReadsAt (offset + 1)
      (spellings length offset shape f) := by
  apply readsAt_total (reads_byte.map _)
  · intro b
    rw [← number_one_toUInt16]
    exact hspelled _ (toNat_toUInt16_lt b)
  · intro operands bytes h
    obtain ⟨index, hlt, rfl, rfl⟩ := hinv operands bytes h
    obtain ⟨b, rfl⟩ := exists_toUInt16 hlt
    exact ⟨b, rfl, (number_one_toUInt16 b).symm⟩

theorem readsAt_increment :
    (do return f (.increment (← byte).toUInt16 (← signed8).toInt16) : Reader Instruction).ReadsAt
      (offset + 1) (spellings length offset .increment f) := by
  apply readsAt_total (reads_byte.map₂ reads_signed8 _)
  · rintro ⟨b, x⟩
    dsimp only
    rw [← number_one_toUInt16, ← Int8.toInt_toInt16]
    exact .increment (toNat_toUInt16_lt b) (fitsSigned_toInt16 x)
  · intro operands bytes h
    cases h with
    | increment hlt hfits =>
        obtain ⟨b, rfl⟩ := exists_toUInt16 hlt
        obtain ⟨x, rfl⟩ := exists_toInt16 hfits
        exact ⟨(b, x), rfl, by rw [number_one_toUInt16, Int8.toInt_toInt16]⟩

theorem readsAt_invokeInterface :
    (do
      let index ← word16
      let count ← byte
      let _ ← byte
      return f (.invokeInterface index count) : Reader Instruction).ReadsAt (offset + 1)
      (spellings length offset .invokeInterface f) := by
  refine ((reads_word16.bind fun index => reads_byte.map₂ reads_byte
    fun count _ => f (.invokeInterface index count)).at _).congr fun i bytes => ?_
  constructor
  · rintro ⟨index, _, rfl, _, ⟨⟨count, reserved⟩, rfl, rfl⟩, rfl⟩
    exact ⟨_, rfl, .invokeInterface index count reserved⟩
  · rintro ⟨_, rfl, ⟨⟩⟩
    rename_i index count reserved
    exact ⟨index, _, rfl, _, ⟨(count, reserved), rfl, rfl⟩, rfl⟩

theorem reads_newArray :
    (do
      let code ← byte
      match ArrayType.ofCode? code with
      | some element => return f (.newArray element)
      | none => fail (.badArrayType code offset) : Reader Instruction).Reads fun i =>
        {bytes | ∃ element : ArrayType, f (.newArray element) = i ∧
          bytes ∈ ({[element.code]} : Set Bytes)} := by
  have hcode (code : UInt8) :
      (match ArrayType.ofCode? code with
        | some element => return f (.newArray element)
        | none => fail (.badArrayType code offset) : Reader Instruction).Reads fun i =>
          {bytes | ∃ element : ArrayType, element.code = code ∧ f (.newArray element) = i ∧
            bytes = []} := by
    cases helement : ArrayType.ofCode? code with
    | none =>
        refine (reads_fail _).congr fun i bytes => ⟨False.elim, ?_⟩
        rintro ⟨element, hcode, -⟩
        rw [ArrayType.ofCode?_eq_some.2 hcode] at helement
        cases helement
    | some element =>
        refine (reads_pure _).congr fun i bytes => ?_
        constructor
        · rintro ⟨rfl, rfl⟩
          exact ⟨element, ArrayType.ofCode?_eq_some.1 helement, rfl, rfl⟩
        · rintro ⟨other, hcode, rfl, rfl⟩
          rw [ArrayType.ofCode?_eq_some.2 hcode] at helement
          obtain rfl := Option.some.inj helement
          exact ⟨rfl, rfl⟩
  refine (reads_byte.bind hcode).congr fun i bytes => ?_
  constructor
  · rintro ⟨_, _, rfl, _, ⟨element, rfl, rfl, rfl⟩, rfl⟩
    exact ⟨element, rfl, rfl⟩
  · rintro ⟨element, rfl, rfl⟩
    exact ⟨_, _, rfl, [], ⟨element, rfl, rfl, rfl⟩, rfl⟩

/-- The operands of an instruction that is not widened, by the shape that its opcode asks for. -/
theorem readsAt_plain (op : Opcode) (hwide : op.shape ≠ .wide) :
    (afterOpcode length offset op).ReadsAt (offset + 1)
      (spellings length offset op.shape fun operands => ⟨offset, op, false, operands⟩) := by
  simp only [afterOpcode]
  cases hshape : op.shape with
  | none =>
      refine ((reads_pure _).at _).congr fun i bytes => ?_
      constructor
      · rintro ⟨rfl, rfl⟩
        exact ⟨_, rfl, .none⟩
      · rintro ⟨_, rfl, ⟨⟩⟩
        exact ⟨rfl, rfl⟩
  | signedByte => exact readsAt_signedByte
  | signedShort =>
      apply readsAt_total (reads_signed16.map _) .signedShort
      intro operands bytes h
      cases h with
      | signedShort value => exact ⟨value, rfl, rfl⟩
  | shortIndex =>
      apply readsAt_byteIndex fun _ => .shortIndex
      intro operands bytes h
      cases h with
      | shortIndex h => exact ⟨_, h, rfl, rfl⟩
  | index =>
      apply readsAt_total (reads_word16.map _) .index
      intro operands bytes h
      cases h with
      | index index => exact ⟨index, rfl, rfl⟩
  | slot =>
      apply readsAt_byteIndex fun _ => .slot
      intro operands bytes h
      cases h with
      | slot h => exact ⟨_, h, rfl, rfl⟩
  | increment => exact readsAt_increment
  | branch =>
      apply readsAt_shape (reads_branch16.map _) fun _ => .branch
      intro operands bytes h
      cases h with
      | branch h => exact ⟨_, rfl, h, rfl⟩
  | wideBranch =>
      apply readsAt_shape (reads_branch32.map _) fun _ => .wideBranch
      intro operands bytes h
      cases h with
      | wideBranch h => exact ⟨_, rfl, h, rfl⟩
  | tableSwitch => exact ((readsAt_tableSwitch op).map _).congr fun _ _ => Iff.rfl
  | lookupSwitch => exact ((readsAt_lookupSwitch op).map _).congr fun _ _ => Iff.rfl
  | invokeInterface => exact readsAt_invokeInterface
  | invokeDynamic =>
      refine readsAt_total (reads_word16.map₂ reads_word16 _) (fun p => .invokeDynamic p.1 p.2) ?_
      intro operands bytes h
      cases h with
      | invokeDynamic index reserved => exact ⟨(index, reserved), rfl, rfl⟩
  | newArray =>
      apply readsAt_total reads_newArray .newArray
      intro operands bytes h
      cases h with
      | newArray element => exact ⟨element, rfl, rfl⟩
  | multiNewArray =>
      refine readsAt_total (reads_word16.map₂ reads_byte _) (fun p => .multiNewArray p.1 p.2) ?_
      intro operands bytes h
      cases h with
      | multiNewArray index dimensions => exact ⟨(index, dimensions), rfl, rfl⟩
  | wide => exact absurd hshape hwide

theorem not_spelled_wide {operands : Operands} {bytes : Bytes} :
    ¬operands.Spelled length offset .wide bytes := by
  intro h
  cases h

theorem byte_ne_wide {operands : Operands} {op : Opcode} {bytes : Bytes}
    (h : operands.Spelled length offset (.ofMnemonic op.mnemonic) bytes) : op.byte ≠ 0xC4 := by
  intro hbyte
  have hshape : op.shape = .wide := OperandShape.ofByte_eq_wide.2 hbyte
  rw [← Opcode.shape_eq_ofMnemonic, hshape] at h
  exact not_spelled_wide h

theorem exists_opcode_of_wide {i : Instruction} {bytes : Bytes} (h : i.Spelled length (0xC4 :: bytes)) :
    ∃ (op : Opcode) (t : Bytes), bytes = op.byte :: t := by
  generalize hall : 0xC4 :: bytes = all at h
  cases h with
  | plain h => exact absurd (List.cons.inj hall).1.symm (byte_ne_wide h)
  | wideSlot => exact ⟨_, _, (List.cons.inj hall).2⟩
  | wideIncrement => exact ⟨_, _, (List.cons.inj hall).2⟩

theorem spelled_wide_iff {i : Instruction} {op : Opcode} {bytes : Bytes} :
    i.offset = offset ∧ i.Spelled length (0xC4 :: op.byte :: bytes) ↔
      (op.shape = .slot ∧ ∃ index, ⟨offset, op, true, .slot index⟩ = i ∧
        bytes = number 2 index.toNat) ∨
      (op.shape = .increment ∧ ∃ index delta, ⟨offset, op, true, .increment index delta⟩ = i ∧
        bytes = number 2 index.toNat ++ signed 2 delta.toInt) := by
  rw [Opcode.shape_eq_ofMnemonic]
  constructor
  · rintro ⟨rfl, h⟩
    generalize hall : 0xC4 :: op.byte :: bytes = all at h
    cases h with
    | plain h => exact absurd (List.cons.inj hall).1.symm (byte_ne_wide h)
    | wideSlot _ index h =>
        obtain ⟨hop, rfl⟩ := List.cons.inj (List.cons.inj hall).2
        obtain rfl := Opcode.eq_of_byte_eq hop
        exact .inl ⟨h, index, rfl, rfl⟩
    | wideIncrement _ index delta h =>
        obtain ⟨hop, rfl⟩ := List.cons.inj (List.cons.inj hall).2
        obtain rfl := Opcode.eq_of_byte_eq hop
        exact .inr ⟨h, index, delta, rfl, rfl⟩
  · rintro (⟨h, index, rfl, rfl⟩ | ⟨h, index, delta, rfl, rfl⟩)
    · exact ⟨rfl, .wideSlot _ _ h⟩
    · exact ⟨rfl, .wideIncrement _ _ _ h⟩

theorem reads_afterWide (op : Opcode) :
    (match op.shape with
      | .slot => return ⟨offset, op, true, .slot (← word16)⟩
      | .increment => return ⟨offset, op, true, .increment (← word16) (← signed16)⟩
      | _ => fail (.unknownOpcode op.byte (offset + 1)) : Reader Instruction).Reads fun i =>
        {bytes | i.offset = offset ∧ i.Spelled length (0xC4 :: op.byte :: bytes)} := by
  cases hshape : op.shape with
  | slot =>
      refine (reads_word16.map _).congr fun i bytes => ?_
      simp [spelled_wide_iff, hshape]
  | increment =>
      refine (reads_word16.map₂ reads_signed16 _).congr fun i bytes => ?_
      simp [spelled_wide_iff, hshape]
  | _ =>
      refine (reads_fail _).congr fun i bytes => ?_
      simp [spelled_wide_iff, hshape]

theorem reads_widened :
    (widened offset).Reads fun i => {bytes | i.offset = offset ∧ i.Spelled length (0xC4 :: bytes)} := by
  refine (reads_byte.bind (M := fun b i =>
    {bytes | i.offset = offset ∧ i.Spelled length (0xC4 :: b :: bytes)}) fun b => ?_).congr
    fun i bytes => ?_
  · cases hb : Opcode.ofByte? b with
    | none =>
        refine (reads_fail _).congr fun i bytes => ⟨False.elim, fun h => ?_⟩
        obtain ⟨op, t, hop⟩ := exists_opcode_of_wide h.2
        rw [(List.cons.inj hop).1, Opcode.ofByte?_byte] at hb
        cases hb
    | some op =>
        obtain rfl := Opcode.byte_of_ofByte? hb
        exact reads_afterWide op
  · constructor
    · rintro ⟨b, _, rfl, t, ht, rfl⟩
      exact ht
    · intro h
      obtain ⟨op, t, rfl⟩ := exists_opcode_of_wide h.2
      exact ⟨op.byte, _, rfl, t, h, rfl⟩

theorem spelled_plain_iff {i : Instruction} {op : Opcode} {bytes : Bytes} (hwide : op.shape ≠ .wide) :
    i.offset = offset ∧ i.Spelled length (op.byte :: bytes) ↔
      bytes ∈ spellings length offset op.shape (fun operands => ⟨offset, op, false, operands⟩) i := by
  have hbyte : op.byte ≠ 0xC4 := fun h => hwide (OperandShape.ofByte_eq_wide.2 h)
  constructor
  · rintro ⟨rfl, h⟩
    generalize hall : op.byte :: bytes = all at h
    cases h with
    | plain h =>
        obtain ⟨hop, rfl⟩ := List.cons.inj hall
        obtain rfl := Opcode.eq_of_byte_eq hop
        exact ⟨_, rfl, by rwa [Opcode.shape_eq_ofMnemonic]⟩
    | wideSlot | wideIncrement => exact absurd (List.cons.inj hall).1 hbyte
  · rintro ⟨operands, rfl, h⟩
    exact ⟨rfl, .plain (by rwa [← Opcode.shape_eq_ofMnemonic])⟩

theorem readsAt_afterOpcode (op : Opcode) :
    (afterOpcode length offset op).ReadsAt (offset + 1) fun i =>
      {bytes | i.offset = offset ∧ i.Spelled length (op.byte :: bytes)} := by
  by_cases hwide : op.shape = .wide
  · have hbyte : op.byte = 0xC4 := OperandShape.ofByte_eq_wide.1 hwide
    have hafter : afterOpcode length offset op = widened offset := by
      simp only [afterOpcode, hwide]
    rw [hafter, hbyte]
    exact reads_widened.at _
  · exact (readsAt_plain op hwide).congr fun i bytes => (spelled_plain_iff hwide).symm

theorem exists_opcode_of_spelled {i : Instruction} {bytes : Bytes} (h : i.Spelled length bytes) :
    ∃ (op : Opcode) (t : Bytes), bytes = op.byte :: t := by
  cases h with
  | plain => exact ⟨_, _, rfl⟩
  | wideSlot | wideIncrement => exact ⟨⟨0xC4, by decide⟩, _, rfl⟩

theorem tiles_of_decodeFrom {rest : Bytes} {is : List Instruction}
    (h : decodeFrom length offset rest = .ok is) : Tiles length offset is rest := by
  fun_induction decodeFrom length offset rest generalizing is with
  | case1 =>
      obtain rfl := Except.ok.inj h
      exact .nil _
  | case5 offset b rest op hop i c hi _ is' his ih =>
      obtain rfl := Except.ok.inj h
      obtain rfl := Opcode.byte_of_ofByte? hop
      obtain ⟨bytes, ⟨rfl, hspelled⟩, rfl, hpos⟩ := (readsAt_afterOpcode op rest i c).1 hi
      have htail := ih his
      rw [hpos, Nat.add_assoc, Nat.add_comm 1] at htail
      exact .cons hspelled htail
  | case2 | case3 | case4 => cases h

theorem decodeFrom_cons {b : UInt8} {rest : Bytes} {op : Opcode} {i : Instruction} {c : Cursor}
    (hop : Opcode.ofByte? b = some op)
    (hi : afterOpcode length offset op ⟨offset + 1, rest⟩ = .ok (i, c)) :
    decodeFrom length offset (b :: rest) = (do return i :: (← decodeFrom length c.pos c.rest)) := by
  rw [decodeFrom]
  simp only [hop]
  split
  next hfault =>
    rw [hi] at hfault
    cases hfault
  next hok =>
    rw [hi] at hok
    cases hok
    cases decodeFrom length c.pos c.rest <;> rfl

theorem afterOpcode_of_spelled {i : Instruction} {op : Opcode} {bytes rest : Bytes}
    (h : i.Spelled length (op.byte :: bytes)) :
    afterOpcode length i.offset op ⟨i.offset + 1, bytes ++ rest⟩ =
      .ok (i, ⟨i.offset + (op.byte :: bytes).length, rest⟩) := by
  refine (readsAt_afterOpcode op (bytes ++ rest) i _).2 ⟨bytes, ⟨rfl, h⟩, rfl, ?_⟩
  rw [List.length_cons, Nat.add_assoc, Nat.add_comm 1]

theorem decodeFrom_of_tiles {rest : Bytes} {is : List Instruction} (h : Tiles length offset is rest) :
    decodeFrom length offset rest = .ok is := by
  induction h with
  | nil offset => rw [decodeFrom]
  | @cons i is spelled rest h hs ih =>
      obtain ⟨op, t, rfl⟩ := exists_opcode_of_spelled h
      rw [List.cons_append, decodeFrom_cons (Opcode.ofByte?_byte op) (afterOpcode_of_spelled h), ih]
      rfl

theorem decode_eq_ok_iff_tiles (code : Bytes) (is : List Instruction) :
    decode code = .ok is ↔ Tiles code.length 0 is code :=
  ⟨tiles_of_decodeFrom, decodeFrom_of_tiles⟩

end Instruction

end ClassListing
