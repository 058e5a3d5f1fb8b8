import ClassListing.Proofs.Bytes.Incremental
import ClassListing.Proofs.Instruction.Decoding

namespace ClassListing

open Layout

namespace Operands

/-- The bytes run out: the instruction at `offset` needs more of them. -/
def Short (op : Opcode) (offset needed : Nat) (rest : Bytes) (fault : Fault) : Prop :=
  rest.length < needed ∧ fault = .truncated op offset

def Outside (length : Nat) (target : Int) : Prop := target < 0 ∨ length ≤ target

/-- The next bytes are the distance of a branch that leads out of the code. -/
def BranchRefused (length offset width : Nat) (rest : Bytes) (fault : Fault) : Prop :=
  ∃ (d : Int) (more : Bytes), rest = signed width d ++ more ∧ FitsSigned width d ∧
    Outside length (offset + d) ∧ fault = .branchOutside offset (offset + d)

/-- The rows of a switch, of one width. That all of them are there is judged before the first. -/
def RowsRefused {α : Type} (op : Opcode) (offset width count : Nat) (good : α → Prop)
    (row : α → Bytes) (wrong : Bytes → Fault → Prop) (rest : Bytes) (fault : Fault) : Prop :=
  Short op offset (width * count) rest fault ∨
    width * count ≤ rest.length ∧ ∃ (before : List α) (more : Bytes),
      rest = before.flatMap row ++ more ∧ before.length < count ∧ (∀ a ∈ before, good a) ∧
        wrong more fault

def TableRefused (length : Nat) (op : Opcode) (offset : Nat) (rest : Bytes) (fault : Fault) : Prop :=
  Short op offset 8 rest fault ∨
    ∃ (low : Int32) (more : Bytes), rest = signed 4 low.toInt ++ more ∧
    ∃ (high : Int32) (rows : Bytes), more = signed 4 high.toInt ++ rows ∧
      (high.toInt < low.toInt ∧ fault = .emptySwitchRange offset low high ∨
        low.toInt ≤ high.toInt ∧
          RowsRefused op offset 4 (high.toInt - low.toInt + 1).toNat (Reaches length offset 4)
            (distance 4 offset) (BranchRefused length offset 4) rows fault)

def LookupRefused (length : Nat) (op : Opcode) (offset : Nat) (rest : Bytes) (fault : Fault) : Prop :=
  Short op offset 4 rest fault ∨
    ∃ (size : Int32) (rows : Bytes), rest = signed 4 size.toInt ++ rows ∧
      (size.toInt < 0 ∧ fault = .negativeSwitchSize offset size ∨
        0 ≤ size.toInt ∧
          RowsRefused op offset 8 size.toInt.toNat (fun case => Reaches length offset 4 case.2)
            (fun case : Int32 × Nat => signed 4 case.1.toInt ++ distance 4 offset case.2)
            (fun row fault => ∃ (key : Int32) (target : Bytes), row = signed 4 key.toInt ++ target ∧
              BranchRefused length offset 4 target fault) rows fault)

def SwitchRefused (length : Nat) (op : Opcode) (offset : Nat) (after : Bytes → Fault → Prop)
    (rest : Bytes) (fault : Fault) : Prop :=
  Short op offset (3 - offset % 4 + 4) rest fault ∨
    ∃ padding more, rest = padding ++ more ∧ Padding offset padding ∧
      (BranchRefused length offset 4 more fault ∨
        ∃ default others, more = distance 4 offset default ++ others ∧
          Reaches length offset 4 default ∧ after others fault)

/-- Only what has a slot can be widened. -/
def WideRefused (op : Opcode) (offset : Nat) (rest : Bytes) (fault : Fault) : Prop :=
  Short op offset 1 rest fault ∨
    ∃ b more, rest = b :: more ∧
      ((∀ widened : Opcode, widened.byte = b →
          OperandShape.ofMnemonic widened.mnemonic ≠ .slot ∧
          OperandShape.ofMnemonic widened.mnemonic ≠ .increment) ∧
          fault = .unknownOpcode b (offset + 1) ∨
        ∃ widened : Opcode, widened.byte = b ∧
          (OperandShape.ofMnemonic widened.mnemonic = .slot ∧ Short op offset 2 more fault ∨
            OperandShape.ofMnemonic widened.mnemonic = .increment ∧ Short op offset 4 more fault))

/-- The first thing that is wrong with the bytes after an opcode, by the shape it asks for. -/
def Refused (length : Nat) (op : Opcode) (offset : Nat) (rest : Bytes) (fault : Fault) :
    OperandShape → Prop
  | .none => False
  | .signedByte | .shortIndex | .slot => Short op offset 1 rest fault
  | .signedShort | .index | .increment => Short op offset 2 rest fault
  | .multiNewArray => Short op offset 3 rest fault
  | .invokeInterface | .invokeDynamic => Short op offset 4 rest fault
  | .branch => Short op offset 2 rest fault ∨ BranchRefused length offset 2 rest fault
  | .wideBranch => Short op offset 4 rest fault ∨ BranchRefused length offset 4 rest fault
  | .newArray =>
    Short op offset 1 rest fault ∨
      ∃ code more, rest = code :: more ∧ (code.toNat < 4 ∨ 11 < code.toNat) ∧
        fault = .badArrayType code offset
  | .tableSwitch => SwitchRefused length op offset (TableRefused length op offset) rest fault
  | .lookupSwitch => SwitchRefused length op offset (LookupRefused length op offset) rest fault
  | .wide => WideRefused op offset rest fault

end Operands

/-- What a fault says about the bytes at `offset`. It is one of the faults of decoding, and it names
this offset, or the next one where the byte after `wide` is no opcode that can be widened. -/
def Fault.Locates (length offset : Nat) (rest : Bytes) : Fault → Prop
  | .unknownOpcode b place =>
    (place = offset ∧ rest.head? = some b ∧ b ≠ 0xC4) ∨
      place = offset + 1 ∧ ∃ more, rest = 0xC4 :: b :: more
  | .truncated op place => place = offset ∧ rest.head? = some op.byte
  | .branchOutside place target =>
    place = offset ∧ Operands.Outside length target ∧
      ∃ width d, (width = 2 ∨ width = 4) ∧ FitsSigned width d ∧ signed width d <:+: rest ∧
        target = offset + d
  | .badArrayType _ place | .emptySwitchRange place _ _ | .negativeSwitchSize place _ =>
    place = offset
  | _ => False

namespace Instruction

/-- The fault of the bytes at `offset`, which spell no instruction there. -/
inductive Refused (length offset : Nat) : Bytes → Fault → Prop
  | unassigned {b : UInt8} {rest : Bytes} (h : 202 ≤ b.toNat) :
      Refused length offset (b :: rest) (.unknownOpcode b offset)
  | operands {op : Opcode} {rest : Bytes} {fault : Fault}
      (h : Operands.Refused length op offset rest fault (.ofMnemonic op.mnemonic)) :
      Refused length offset (op.byte :: rest) fault

open Reader
open Operands (Reaches distance Padding Short Outside BranchRefused RowsRefused TableRefused
  LookupRefused SwitchRefused WideRefused)

variable {α β : Type} {length offset : Nat} {op : Opcode} {fault : Fault}

/-- The outcome is a failure that is reported with this fault. -/
def Blames (op : Opcode) (offset : Nat) (outcome : Except Fault α) (fault : Fault) : Prop :=
  ∃ found, outcome = .error found ∧ blame op offset found = fault

theorem blame_of_isEnd {found : Fault} (h : found.IsEnd) :
    blame op offset found = .truncated op offset := by
  cases found with
  | unexpectedEnd => rfl
  | _ => cases h

theorem blames_error {found : Fault} (h : ¬found.IsEnd) :
    Blames op offset (.error found : Except Fault α) fault ↔ fault = found := by
  have hblame : blame op offset found = found := by
    cases found with
    | unexpectedEnd => exact absurd trivial h
    | _ => rfl
  constructor
  · rintro ⟨_, hfound, rfl⟩
    rw [← Except.error.inj hfound, hblame]
  · rintro rfl
    exact ⟨_, rfl, hblame⟩

theorem not_blames_ok {a : α} : ¬Blames op offset (.ok a) fault := by
  rintro ⟨found, hfound, -⟩
  cases hfound

theorem blames_bind {r : Reader α} {f : α → Reader β} {c : Cursor} :
    Blames op offset ((r >>= f) c) fault ↔
      Blames op offset (r c) fault ∨ ∃ a d, r c = .ok (a, d) ∧ Blames op offset (f a d) fault := by
  constructor
  · rintro ⟨found, hfound, hblame⟩
    rcases bind_eq_error.1 hfound with hr | ⟨a, d, ha, hf⟩
    · exact .inl ⟨found, hr, hblame⟩
    · exact .inr ⟨a, d, ha, found, hf, hblame⟩
  · rintro (⟨found, hr, hblame⟩ | ⟨a, d, ha, found, hf, hblame⟩)
    · exact ⟨found, bind_eq_error.2 (.inl hr), hblame⟩
    · exact ⟨found, bind_eq_error.2 (.inr ⟨a, d, ha, hf⟩), hblame⟩

theorem blames_map {r : Reader α} {g : α → β} {c : Cursor} :
    Blames op offset ((do return g (← r) : Reader β) c) fault ↔ Blames op offset (r c) fault := by
  rw [blames_bind, or_iff_left]
  rintro ⟨a, d, -, h⟩
  exact not_blames_ok h

theorem blames_of_takes {r : Reader α} {n : Nat} (hr : r.Takes n) {c : Cursor} :
    Blames op offset (r c) fault ↔ Short op offset n c.rest fault := by
  constructor
  · rintro ⟨found, hfound, rfl⟩
    obtain ⟨hlt, hend⟩ := hr.ends hfound
    exact ⟨hlt, blame_of_isEnd hend⟩
  · rintro ⟨hlt, rfl⟩
    cases hc : r c with
    | error found => exact ⟨found, rfl, blame_of_isEnd (hr.ends hc).2⟩
    | ok p =>
        have hlen := hr.ok hc
        omega

/-- One more field: the bytes run out in it or after it, or what follows it is wrong. -/
theorem blames_field {r : Reader α} {f : α → Reader β} {L : α → Set Bytes} {m n : Nat}
    {W : α → Bytes → Prop} (hr : r.Reads L) (htakes : r.Takes m)
    (hf : ∀ a d, Blames op offset (f a d) fault ↔ Short op offset n d.rest fault ∨ W a d.rest)
    {c : Cursor} :
    Blames op offset ((r >>= f) c) fault ↔ Short op offset (m + n) c.rest fault ∨
      ∃ a, ∃ s ∈ L a, ∃ more, c.rest = s ++ more ∧ W a more := by
  rw [blames_bind, blames_of_takes htakes]
  constructor
  · rintro (⟨hlt, hfault⟩ | ⟨a, d, ha, h⟩)
    · exact .inl ⟨by omega, hfault⟩
    · have hlen := htakes.ok ha
      obtain ⟨s, hs, hrest, -⟩ := (hr c a d).1 ha
      rcases (hf a d).1 h with ⟨hlt, hfault⟩ | hwrong
      · exact .inl ⟨by omega, hfault⟩
      · exact .inr ⟨a, s, hs, d.rest, hrest, hwrong⟩
  · rintro (⟨hlt, hfault⟩ | ⟨a, s, hs, more, hrest, hwrong⟩)
    · cases hc : r c with
      | error found =>
          obtain ⟨hshort, -⟩ := htakes.ends hc
          exact .inl ⟨hshort, hfault⟩
      | ok p =>
          obtain ⟨a, d⟩ := p
          have hlen := htakes.ok hc
          exact .inr ⟨a, d, rfl, (hf a d).2 (.inl ⟨by omega, hfault⟩)⟩
    · have ha := (hr c a ⟨c.pos + s.length, more⟩).2 ⟨s, hs, hrest, rfl⟩
      exact .inr ⟨a, _, ha, (hf a _).2 (.inr hwrong)⟩

theorem blames_word {r : Reader α} {f : α → Reader β} {L : α → Bytes} {m n : Nat}
    {W : α → Bytes → Prop} (hr : r.Reads fun a => {L a}) (htakes : r.Takes m)
    (hf : ∀ a d, Blames op offset (f a d) fault ↔ Short op offset n d.rest fault ∨ W a d.rest)
    {c : Cursor} :
    Blames op offset ((r >>= f) c) fault ↔ Short op offset (m + n) c.rest fault ∨
      ∃ a more, c.rest = L a ++ more ∧ W a more := by
  simpa only [Set.mem_singleton_iff, exists_eq_left] using blames_field hr htakes hf

theorem not_short_zero {rest : Bytes} : ¬Short op offset 0 rest fault := by
  rintro ⟨hlt, -⟩
  exact absurd hlt (Nat.not_lt_zero _)

theorem blames_lastWord {r : Reader α} {f : α → Reader β} {L : α → Bytes} {m : Nat}
    {W : α → Bytes → Prop} (hr : r.Reads fun a => {L a}) (htakes : r.Takes m)
    (hf : ∀ a d, Blames op offset (f a d) fault ↔ W a d.rest) {c : Cursor} :
    Blames op offset ((r >>= f) c) fault ↔ Short op offset m c.rest fault ∨
      ∃ a more, c.rest = L a ++ more ∧ W a more := by
  apply blames_word (n := 0) hr htakes
  intro a d
  rw [hf a d, or_iff_right not_short_zero]

theorem takes_signed8 : signed8.Takes 1 := takes_byte.bind fun _ => takes_pure _

theorem takes_signed16 : signed16.Takes 2 := takes_word16.bind fun _ => takes_pure _

theorem takes_signed32 : signed32.Takes 4 := takes_word32.bind fun _ => takes_pure _

theorem blames_target {d : Int} {c : Cursor} :
    Blames op offset (check (target length offset d) c) fault ↔
      Outside length (offset + d) ∧ fault = .branchOutside offset (offset + d) := by
  rw [target, Outside]
  split
  next h =>
    refine iff_of_false not_blames_ok ?_
    rintro ⟨hout, -⟩
    omega
  next h =>
    refine (blames_error id).trans (and_iff_right ?_).symm
    omega

theorem blames_branch {X : Type} {r : Reader X} {toInt : X → Int} {width : Nat}
    (hr : r.Reads fun x => {signed width (toInt x)}) (htakes : r.Takes width)
    (hfits : ∀ n, FitsSigned width n ↔ ∃ x, toInt x = n) {c : Cursor} :
    Blames op offset ((do check (target length offset (toInt (← r))) : Reader Nat) c) fault ↔
      Short op offset width c.rest fault ∨ BranchRefused length offset width c.rest fault := by
  rw [blames_lastWord (W := fun x _ => Outside length (offset + toInt x) ∧
    fault = .branchOutside offset (offset + toInt x)) hr htakes fun _ _ => blames_target]
  apply or_congr_right
  constructor
  · rintro ⟨x, more, hrest, hout, hfault⟩
    exact ⟨toInt x, more, hrest, (hfits _).2 ⟨x, rfl⟩, hout, hfault⟩
  · rintro ⟨d, more, hrest, hfit, hout, hfault⟩
    obtain ⟨x, rfl⟩ := (hfits d).1 hfit
    exact ⟨x, more, hrest, hout, hfault⟩

theorem blames_branch16 {c : Cursor} :
    Blames op offset (branch16 length offset c) fault ↔
      Short op offset 2 c.rest fault ∨ BranchRefused length offset 2 c.rest fault :=
  blames_branch reads_signed16 takes_signed16 fun _ => fitsSigned_two

theorem blames_branch32 {c : Cursor} :
    Blames op offset (branch32 length offset c) fault ↔
      Short op offset 4 c.rest fault ∨ BranchRefused length offset 4 c.rest fault :=
  blames_branch reads_signed32 takes_signed32 fun _ => fitsSigned_four

theorem blames_times {item : Reader α} {n : Nat} {c : Cursor} :
    Blames op offset (times n item c) fault ↔
      ∃ k < n, ∃ as d, times k item c = .ok (as, d) ∧ Blames op offset (item d) fault := by
  constructor
  · rintro ⟨found, hfound, hblame⟩
    obtain ⟨k, hk, as, d, has, hd⟩ := times_eq_error.1 hfound
    exact ⟨k, hk, as, d, has, found, hd, hblame⟩
  · rintro ⟨k, hk, as, d, has, found, hd, hblame⟩
    exact ⟨found, times_eq_error.2 ⟨k, hk, as, d, has, hd⟩, hblame⟩

theorem blames_rows {item : Reader α} {good : α → Prop} {row : α → Bytes} {width : Nat}
    {wrong : Bytes → Fault → Prop} (hreads : item.Reads (only good row))
    (hwidth : ∀ a, (row a).length = width)
    (hitem : ∀ d, Blames op offset (item d) fault ↔
      Short op offset width d.rest fault ∨ wrong d.rest fault)
    (n : Nat) (f : List α → Operands) {c : Cursor} :
    Blames op offset ((do
      ensure (width * n) (.truncated op offset)
      let rows ← times n item
      return f rows : Reader Operands) c) fault ↔
      RowsRefused op offset width n good row wrong c.rest fault := by
  by_cases hroom : c.rest.length < width * n
  · rw [ensure_bind_of_lt hroom, blames_error id]
    constructor
    · intro hfault
      exact .inl ⟨hroom, hfault⟩
    · rintro (⟨-, hfault⟩ | ⟨hle, -⟩)
      · exact hfault
      · omega
  · rw [ensure_bind_of_not_lt hroom, blames_map, blames_times]
    constructor
    · rintro ⟨k, hk, before, d, hbefore, hd⟩
      obtain ⟨_, ⟨⟨hlen, hgood⟩, rfl⟩, hrest, -⟩ := (reads_rows hreads k c before d).1 hbefore
      refine .inr ⟨by omega, before, d.rest, hrest, by omega, hgood, ((hitem d).1 hd).resolve_left ?_⟩
      -- the row that is judged is there, since all of them are
      rintro ⟨hshort, -⟩
      have hmul : width * (k + 1) ≤ width * n := Nat.mul_le_mul_left width hk
      rw [hrest, List.length_append, length_flatMap_of_width hwidth, hlen] at hroom
      rw [Nat.mul_succ] at hmul
      omega
    · rintro (⟨hshort, -⟩ | ⟨-, before, more, hrest, hlt, hgood, hwrong⟩)
      · exact absurd hshort hroom
      · have hbefore := (reads_rows hreads before.length c before
          ⟨c.pos + (before.flatMap row).length, more⟩).2 ⟨_, ⟨⟨rfl, hgood⟩, rfl⟩, hrest, rfl⟩
        exact ⟨before.length, hlt, before, _, hbefore, (hitem _).2 (.inr hwrong)⟩

theorem blames_tableRows {default : Nat} {low high : Int32} {c : Cursor} :
    Blames op offset ((if high < low then fail (.emptySwitchRange offset low high)
      else do
        let count := (high.toInt - low.toInt + 1).toNat
        ensure (4 * count) (.truncated op offset)
        let targets ← times count (branch32 length offset)
        return .tableSwitch default low high targets : Reader Operands) c) fault ↔
      (high.toInt < low.toInt ∧ fault = .emptySwitchRange offset low high ∨
        low.toInt ≤ high.toInt ∧
          RowsRefused op offset 4 (high.toInt - low.toInt + 1).toNat (Reaches length offset 4)
            (distance 4 offset) (BranchRefused length offset 4) c.rest fault) := by
  rw [← Int32.lt_iff_toInt_lt, ← Int.not_lt, ← Int32.lt_iff_toInt_lt]
  by_cases hlt : high < low
  · simp only [hlt, if_true, true_and, not_true_eq_false, false_and, or_false]
    exact blames_error id
  · simp only [hlt, if_false, not_false_eq_true, true_and, false_and, false_or]
    exact blames_rows reads_branch32 (length_distance 4 offset) (fun _ => blames_branch32) _ _

theorem blames_case {c : Cursor} :
    Blames op offset ((do
      let key ← signed32
      let target ← branch32 length offset
      return (key, target) : Reader (Int32 × Nat)) c) fault ↔
      Short op offset 8 c.rest fault ∨
        ∃ (key : Int32) (target : Bytes), c.rest = signed 4 key.toInt ++ target ∧
          BranchRefused length offset 4 target fault := by
  apply blames_word (n := 4) (W := fun _ target => BranchRefused length offset 4 target fault)
    reads_signed32 takes_signed32
  intro key d
  rw [blames_map, blames_branch32]

theorem blames_lookupRows {default : Nat} {size : Int32} {c : Cursor} :
    Blames op offset ((if size < 0 then fail (.negativeSwitchSize offset size)
      else do
        let count := size.toInt.toNat
        ensure (8 * count) (.truncated op offset)
        let cases ← times count do
          let key ← signed32
          let target ← branch32 length offset
          return (key, target)
        return .lookupSwitch default cases : Reader Operands) c) fault ↔
      (size.toInt < 0 ∧ fault = .negativeSwitchSize offset size ∨
        0 ≤ size.toInt ∧
          RowsRefused op offset 8 size.toInt.toNat (fun case => Reaches length offset 4 case.2)
            (fun case : Int32 × Nat => signed 4 case.1.toInt ++ distance 4 offset case.2)
            (fun row fault => ∃ (key : Int32) (target : Bytes), row = signed 4 key.toInt ++ target ∧
              BranchRefused length offset 4 target fault) c.rest fault) := by
  have hzero : size < 0 ↔ size.toInt < 0 := by rw [Int32.lt_iff_toInt_lt, Int32.toInt_zero]
  rw [← Int.not_lt, ← hzero]
  by_cases hlt : size < 0
  · simp only [hlt, if_true, true_and, not_true_eq_false, false_and, or_false]
    exact blames_error id
  · simp only [hlt, if_false, not_false_eq_true, true_and, false_and, false_or]
    exact blames_rows reads_case length_case (fun _ => blames_case) _ _

theorem blames_align {r : Reader α} {n : Nat} {W : Bytes → Prop}
    (hr : ∀ d, Blames op offset (r d) fault ↔ Short op offset n d.rest fault ∨ W d.rest)
    {rest : Bytes} :
    Blames op offset ((align 4 >>= fun _ => r) ⟨offset + 1, rest⟩) fault ↔
      Short op offset (3 - offset % 4 + n) rest fault ∨
        ∃ padding more, rest = padding ++ more ∧ Padding offset padding ∧ W more := by
  have hpad : (4 - (offset + 1) % 4) % 4 = 3 - offset % 4 := by omega
  rw [align_bind, hpad,
    blames_field (W := fun _ => W) (reads_take _) (takes_take _) fun _ d => hr d]
  apply or_congr_right
  constructor
  · rintro ⟨padding, _, ⟨rfl, hlen⟩, more, hrest, hwrong⟩
    exact ⟨_, more, hrest, ⟨by omega, by omega⟩, hwrong⟩
  · rintro ⟨padding, more, hrest, ⟨hlt, hmod⟩, hwrong⟩
    exact ⟨padding, padding, ⟨rfl, by omega⟩, more, hrest, hwrong⟩

theorem blames_switch {r : Nat → Reader Operands} {after : Bytes → Fault → Prop} {rest : Bytes}
    (hafter : ∀ default d, Blames op offset (r default d) fault ↔ after d.rest fault) :
    Blames op offset ((do
      align 4
      let default ← branch32 length offset
      r default : Reader Operands) ⟨offset + 1, rest⟩) fault ↔
      SwitchRefused length op offset after rest fault := by
  apply blames_align
  intro d
  rw [blames_bind, blames_branch32, or_assoc]
  apply or_congr_right
  apply or_congr_right
  constructor
  · rintro ⟨default, e, hdefault, h⟩
    obtain ⟨_, ⟨hreaches, rfl⟩, hrest, -⟩ := (reads_branch32 d default e).1 hdefault
    exact ⟨default, e.rest, hrest, hreaches, (hafter default e).1 h⟩
  · rintro ⟨default, others, hrest, hreaches, h⟩
    have hdefault := (reads_branch32 d default ⟨d.pos + (distance 4 offset default).length, others⟩).2
      ⟨_, ⟨hreaches, rfl⟩, hrest, rfl⟩
    exact ⟨default, _, hdefault, (hafter default _).2 h⟩

theorem blames_tableSwitch {rest : Bytes} :
    Blames op offset (tableSwitch length offset op ⟨offset + 1, rest⟩) fault ↔
      SwitchRefused length op offset (TableRefused length op offset) rest fault := by
  apply blames_switch
  intro default d
  apply blames_word (n := 4) reads_signed32 takes_signed32
  intro low e
  apply blames_lastWord reads_signed32 takes_signed32
  intro high e
  exact blames_tableRows

theorem blames_lookupSwitch {rest : Bytes} :
    Blames op offset (lookupSwitch length offset op ⟨offset + 1, rest⟩) fault ↔
      SwitchRefused length op offset (LookupRefused length op offset) rest fault := by
  apply blames_switch
  intro default d
  apply blames_lastWord reads_signed32 takes_signed32
  intro size e
  exact blames_lookupRows

theorem ofCode?_eq_none {code : UInt8} :
    ArrayType.ofCode? code = none ↔ code.toNat < 4 ∨ 11 < code.toNat := by
  have hall : ∀ n < 256, ArrayType.ofCode? (UInt8.ofNat n) = none ↔ n < 4 ∨ 11 < n := by
    decide +kernel
  have hcode := hall code.toNat code.toNat_lt
  rwa [UInt8.ofNat_toNat] at hcode

theorem blames_newArray {f : ArrayType → Instruction} {c : Cursor} :
    Blames op offset ((do
      let code ← byte
      match ArrayType.ofCode? code with
      | some element => return f element
      | none => fail (.badArrayType code offset) : Reader Instruction) c) fault ↔
      Short op offset 1 c.rest fault ∨
        ∃ code more, c.rest = code :: more ∧ (code.toNat < 4 ∨ 11 < code.toNat) ∧
          fault = .badArrayType code offset := by
  apply blames_lastWord reads_byte takes_byte
  intro code d
  rw [← ofCode?_eq_none]
  cases ArrayType.ofCode? code with
  | none => exact (blames_error id).trans (and_iff_right rfl).symm
  | some element => exact iff_of_false not_blames_ok (by simp)

theorem blames_widened {c : Cursor} :
    Blames op offset (widened offset c) fault ↔ WideRefused op offset c.rest fault := by
  apply blames_lastWord reads_byte takes_byte
  intro b d
  cases hb : Opcode.ofByte? b with
  | none =>
      have hnone (other : Opcode) : other.byte ≠ b := by
        rintro rfl
        rw [Opcode.ofByte?_byte] at hb
        cases hb
      simp only [hnone, false_imp_iff, implies_true, true_and, false_and, exists_false, or_false]
      exact blames_error id
  | some other =>
      obtain rfl := Opcode.byte_of_ofByte? hb
      have hbyte (another : Opcode) : another.byte = other.byte ↔ another = other :=
        ⟨Opcode.eq_of_byte_eq, congrArg Opcode.byte⟩
      simp only [hbyte, forall_eq, exists_eq_left, ← Opcode.shape_eq_ofMnemonic]
      cases hshape : other.shape with
      | slot =>
          simp only [reduceCtorEq, ne_eq, not_true_eq_false, not_false_eq_true, false_and, true_and,
            false_or, or_false]
          exact blames_map.trans (blames_of_takes takes_word16)
      | increment =>
          simp only [reduceCtorEq, ne_eq, not_true_eq_false, not_false_eq_true, and_false, true_and,
            false_and, false_or]
          exact blames_of_takes (takes_word16.bind fun _ => takes_signed16.bind fun _ => takes_pure _)
      | _ =>
          simp only [reduceCtorEq, ne_eq, not_false_eq_true, true_and, false_and, or_false]
          exact blames_error id

theorem blames_afterOpcode {rest : Bytes} :
    Blames op offset (afterOpcode length offset op ⟨offset + 1, rest⟩) fault ↔
      Operands.Refused length op offset rest fault op.shape := by
  simp only [afterOpcode]
  cases op.shape with
  | none => exact iff_of_false not_blames_ok id
  | signedByte => exact blames_map.trans (blames_of_takes takes_signed8)
  | signedShort => exact blames_map.trans (blames_of_takes takes_signed16)
  | shortIndex | slot => exact blames_map.trans (blames_of_takes takes_byte)
  | index => exact blames_map.trans (blames_of_takes takes_word16)
  | increment =>
      exact blames_of_takes (takes_byte.bind fun _ => takes_signed8.bind fun _ => takes_pure _)
  | branch => exact blames_map.trans blames_branch16
  | wideBranch => exact blames_map.trans blames_branch32
  | tableSwitch => exact blames_map.trans blames_tableSwitch
  | lookupSwitch => exact blames_map.trans blames_lookupSwitch
  | invokeInterface =>
      exact blames_of_takes (takes_word16.bind fun _ => takes_byte.bind fun _ =>
        takes_byte.bind fun _ => takes_pure _)
  | invokeDynamic =>
      exact blames_of_takes (takes_word16.bind fun _ => takes_word16.bind fun _ => takes_pure _)
  | newArray => exact blames_newArray
  | multiNewArray =>
      exact blames_of_takes (takes_word16.bind fun _ => takes_byte.bind fun _ => takes_pure _)
  | wide => exact blames_widened

theorem refused_iff_blames {rest : Bytes} :
    Refused length offset (op.byte :: rest) fault ↔
      Blames op offset (afterOpcode length offset op ⟨offset + 1, rest⟩) fault := by
  rw [blames_afterOpcode, Opcode.shape_eq_ofMnemonic]
  constructor
  · intro h
    generalize hall : op.byte :: rest = all at h
    cases h with
    | @unassigned b rest h =>
        have hassigned := op.assigned
        rw [(List.cons.inj hall).1] at hassigned
        omega
    | operands h =>
        obtain ⟨hbyte, rfl⟩ := List.cons.inj hall
        obtain rfl := Opcode.eq_of_byte_eq hbyte
        exact h
  · exact .operands

theorem refused_of_decodeFrom {rest : Bytes} (h : decodeFrom length offset rest = .error fault) :
    ∃ is done more, rest = done ++ more ∧ Tiles length offset is done ∧
      Refused length (offset + done.length) more fault := by
  fun_induction decodeFrom length offset rest with
  | case1 | case5 => cases h
  | case2 offset b rest hop =>
      obtain rfl := Except.error.inj h
      refine ⟨[], [], b :: rest, rfl, .nil offset, .unassigned ?_⟩
      rw [Opcode.ofByte?] at hop
      split at hop
      · cases hop
      · omega
  | case3 offset b rest op hop found hfound =>
      obtain rfl := Opcode.byte_of_ofByte? hop
      exact ⟨[], [], _, rfl, .nil offset, refused_iff_blames.2 ⟨found, hfound, Except.error.inj h⟩⟩
  | case4 offset b rest op hop i c hi _ found hfound ih =>
      obtain rfl := Opcode.byte_of_ofByte? hop
      obtain ⟨spelled, ⟨rfl, hspelled⟩, rfl, hpos⟩ := (readsAt_afterOpcode op rest i c).1 hi
      obtain ⟨is, done, more, hrest, htiles, hrefused⟩ := ih (hfound.trans h)
      have hnext : c.pos = i.offset + (op.byte :: spelled).length := by
        rw [hpos, List.length_cons, Nat.add_assoc, Nat.add_comm 1]
      rw [hnext] at htiles hrefused
      refine ⟨i :: is, op.byte :: spelled ++ done, more, ?_, .cons hspelled htiles, ?_⟩
      · rw [hrest, List.append_assoc]
        rfl
      · rwa [List.length_append, ← Nat.add_assoc]

theorem decodeFrom_of_refused {rest : Bytes} (h : Refused length offset rest fault) :
    decodeFrom length offset rest = .error fault := by
  cases h with
  | @unassigned b rest h =>
      have hop : Opcode.ofByte? b = none := by rw [Opcode.ofByte?, dif_neg (by omega)]
      rw [decodeFrom]
      simp only [hop]
  | @operands op rest fault h =>
      obtain ⟨found, hfound, rfl⟩ := refused_iff_blames.1 (.operands h)
      rw [decodeFrom]
      simp only [Opcode.ofByte?_byte]
      split
      next other hother =>
        rw [hfound] at hother
        rw [Except.error.inj hother]
      next hok =>
        rw [hfound] at hok
        cases hok

theorem decodeFrom_of_tiles_refused {is : List Instruction} {done more : Bytes}
    (h : Tiles length offset is done) (hrefused : Refused length (offset + done.length) more fault) :
    decodeFrom length offset (done ++ more) = .error fault := by
  induction h with
  | nil offset => exact decodeFrom_of_refused hrefused
  | @cons i is spelled rest h hs ih =>
      obtain ⟨op, t, rfl⟩ := exists_opcode_of_spelled h
      rw [List.length_append, ← Nat.add_assoc] at hrefused
      rw [List.append_assoc, List.cons_append,
        decodeFrom_cons (Opcode.ofByte?_byte op) (afterOpcode_of_spelled h), ih hrefused]
      rfl

theorem not_spelled_of_refused {i : Instruction} {spelled more : Bytes}
    (h : Refused length i.offset (spelled ++ more) fault) : ¬i.Spelled length spelled := by
  intro hspelled
  obtain ⟨op, t, rfl⟩ := exists_opcode_of_spelled hspelled
  rw [List.cons_append] at h
  obtain ⟨found, hfound, -⟩ := refused_iff_blames.1 h
  rw [afterOpcode_of_spelled hspelled] at hfound
  cases hfound

section Locates

variable {rest after : Bytes}

theorem locates_of_short {n : Nat} (h : Short op offset n rest fault) :
    fault.Locates length offset (op.byte :: after) := by
  obtain ⟨-, rfl⟩ := h
  exact ⟨rfl, rfl⟩

theorem locates_of_branch {width : Nat} (hwidth : width = 2 ∨ width = 4)
    (h : BranchRefused length offset width rest fault) (hrest : rest <:+ after) :
    fault.Locates length offset (op.byte :: after) := by
  obtain ⟨d, more, rfl, hfits, hout, rfl⟩ := h
  refine ⟨rfl, hout, width, d, hwidth, hfits, ?_, rfl⟩
  exact (List.prefix_append _ _).isInfix.trans (hrest.trans (List.suffix_cons _ _)).isInfix

theorem locates_of_rows {good : α → Prop} {row : α → Bytes} {wrong : Bytes → Fault → Prop}
    {width n : Nat} (h : RowsRefused op offset width n good row wrong rest fault)
    (hrest : rest <:+ after)
    (hwrong : ∀ more, wrong more fault → more <:+ after → fault.Locates length offset (op.byte :: after)) :
    fault.Locates length offset (op.byte :: after) := by
  rcases h with h | ⟨-, before, more, rfl, -, -, h⟩
  · exact locates_of_short h
  · exact hwrong more h ((List.suffix_append _ _).trans hrest)

theorem locates_of_table (h : TableRefused length op offset rest fault) (hrest : rest <:+ after) :
    fault.Locates length offset (op.byte :: after) := by
  rcases h with h | ⟨low, _, rfl, high, rows, rfl, ⟨-, rfl⟩ | ⟨-, h⟩⟩
  · exact locates_of_short h
  · rfl
  · have hrows : rows <:+ after :=
      ((List.suffix_append _ _).trans (List.suffix_append _ _)).trans hrest
    exact locates_of_rows h hrows fun _ h => locates_of_branch (.inr rfl) h

theorem locates_of_lookup (h : LookupRefused length op offset rest fault) (hrest : rest <:+ after) :
    fault.Locates length offset (op.byte :: after) := by
  rcases h with h | ⟨size, rows, rfl, ⟨-, rfl⟩ | ⟨-, h⟩⟩
  · exact locates_of_short h
  · rfl
  · apply locates_of_rows h ((List.suffix_append _ _).trans hrest)
    rintro _ ⟨key, target, rfl, h⟩ hrow
    exact locates_of_branch (.inr rfl) h ((List.suffix_append _ _).trans hrow)

theorem locates_of_switch {P : Bytes → Fault → Prop} (h : SwitchRefused length op offset P after fault)
    (hP : ∀ others, P others fault → others <:+ after →
      fault.Locates length offset (op.byte :: after)) :
    fault.Locates length offset (op.byte :: after) := by
  rcases h with h | ⟨padding, more, rfl, -, h | ⟨default, others, rfl, -, h⟩⟩
  · exact locates_of_short h
  · exact locates_of_branch (.inr rfl) h (List.suffix_append _ _)
  · exact hP others h ((List.suffix_append _ _).trans (List.suffix_append _ _))

theorem locates_of_wide (h : WideRefused op offset after fault) (hop : op.shape = .wide) :
    fault.Locates length offset (op.byte :: after) := by
  rcases h with h | ⟨b, more, rfl, ⟨-, rfl⟩ | ⟨widened, -, ⟨-, h⟩ | ⟨-, h⟩⟩⟩
  · exact locates_of_short h
  · rw [show op.byte = 0xC4 from OperandShape.ofByte_eq_wide.1 hop]
    exact .inr ⟨rfl, more, rfl⟩
  · exact locates_of_short h
  · exact locates_of_short h

theorem Refused.locates (h : Refused length offset rest fault) : fault.Locates length offset rest := by
  cases h with
  | @unassigned b rest h =>
      refine .inl ⟨rfl, rfl, ?_⟩
      rintro rfl
      exact absurd h (by decide)
  | @operands op rest fault h =>
      rw [← Opcode.shape_eq_ofMnemonic] at h
      cases hshape : op.shape with
      | none =>
          rw [hshape] at h
          exact h.elim
      | signedByte | shortIndex | slot | signedShort | index | increment | multiNewArray
      | invokeInterface | invokeDynamic =>
          rw [hshape] at h
          exact locates_of_short h
      | branch =>
          rw [hshape] at h
          exact h.elim locates_of_short fun h => locates_of_branch (.inl rfl) h List.suffix_rfl
      | wideBranch =>
          rw [hshape] at h
          exact h.elim locates_of_short fun h => locates_of_branch (.inr rfl) h List.suffix_rfl
      | newArray =>
          rw [hshape] at h
          rcases h with h | ⟨code, more, rfl, -, rfl⟩
          · exact locates_of_short h
          · rfl
      | tableSwitch =>
          rw [hshape] at h
          exact locates_of_switch h fun _ => locates_of_table
      | lookupSwitch =>
          rw [hshape] at h
          exact locates_of_switch h fun _ => locates_of_lookup
      | wide =>
          rw [hshape] at h
          exact locates_of_wide h hshape

end Locates

/-- Decoding fails exactly if instructions tile the code up to an offset where none is spelled, and
with the fault of the bytes there. -/
theorem decode_eq_error_iff_refused (code : Bytes) (fault : Fault) :
    decode code = .error fault ↔ ∃ is done rest, code = done ++ rest ∧ Tiles code.length 0 is done ∧
      Refused code.length done.length rest fault ∧ fault.Locates code.length done.length rest ∧
      ∀ (i : Instruction) (spelled more : Bytes), rest = spelled ++ more → i.offset = done.length →
        ¬i.Spelled code.length spelled := by
  constructor
  · intro h
    obtain ⟨is, done, rest, hcode, htiles, hrefused⟩ := refused_of_decodeFrom h
    rw [Nat.zero_add] at hrefused
    refine ⟨is, done, rest, hcode, htiles, hrefused, hrefused.locates, ?_⟩
    rintro i spelled more rfl hoffset
    rw [← hoffset] at hrefused
    exact not_spelled_of_refused hrefused
  · rintro ⟨is, done, rest, hcode, htiles, hrefused, -, -⟩
    rw [decode]
    nth_rewrite 2 [hcode]
    rw [← Nat.zero_add done.length] at hrefused
    exact decodeFrom_of_tiles_refused htiles hrefused

end Instruction

end ClassListing
