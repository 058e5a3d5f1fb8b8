import ClassListing.Proofs.Bytes.Incremental
import ClassListing.Proofs.Reading

namespace ClassListing

open Reader

namespace Pool

variable (pool : Pool)

theorem neverEnds_get (index : UInt16) : NeverEnds (pool.get index) := by
  rw [get]
  split
  · exact .ok _
  · exact .error id

theorem neverEnds_utf8 (index : UInt16) : NeverEnds (pool.utf8 index) := by
  apply (neverEnds_get pool index).bind
  intro constant
  split
  · exact .ok _
  · exact .error id

theorem neverEnds_className (index : UInt16) : NeverEnds (pool.className index) := by
  apply (neverEnds_get pool index).bind
  intro constant
  split
  · exact neverEnds_utf8 pool _
  · exact .error id

theorem neverEnds_signature (index : UInt16) : NeverEnds (pool.signature index) := by
  apply (neverEnds_get pool index).bind
  intro constant
  split
  · exact (neverEnds_utf8 pool _).bind fun _ => (neverEnds_utf8 pool _).bind fun _ => .ok _
  · exact .error id

theorem neverEnds_member (index : UInt16) : NeverEnds (pool.member index) := by
  apply (neverEnds_get pool index).bind
  intro constant
  split
  · exact (neverEnds_signature pool _).bind fun _ => (neverEnds_className pool _).bind fun _ => .ok _
  · exact .error id

theorem neverEnds_require (role : Role) (index : UInt16) : NeverEnds (pool.require role index) := by
  apply (neverEnds_get pool index).bind
  intro constant
  split
  · exact .ok _
  · exact .error id

theorem neverEnds_checkHandle (index : UInt16) (code : UInt8) (target : UInt16) :
    NeverEnds (pool.checkHandle index code target) := by
  apply (neverEnds_get pool target).bind
  intro constant
  split
  · exact (neverEnds_require pool _ _).bind fun _ => .ok _
  · exact .error id

theorem neverEnds_checkEntry (index : UInt16) (constant : Constant) :
    NeverEnds (pool.checkEntry index constant) := by
  cases constant with
  | utf8 | integer | float | long | double => exact .ok _
  | classRef | module | package | string | methodType =>
      exact (neverEnds_utf8 pool _).bind fun _ => .ok _
  | nameAndType =>
      exact (neverEnds_utf8 pool _).bind fun _ => (neverEnds_utf8 pool _).bind fun _ => .ok _
  | member => exact (neverEnds_member pool _).bind fun _ => .ok _
  | dynamic | invokeDynamic => exact (neverEnds_signature pool _).bind fun _ => .ok _
  | methodHandle => exact neverEnds_checkHandle pool _ _ _

theorem neverEnds_validate : NeverEnds pool.validate := by
  apply NeverEnds.forM
  intro entry
  exact neverEnds_checkEntry pool entry.1 entry.2

theorem incremental_readConstant (index : UInt16) : (readConstant index).Incremental := by
  apply incremental_byte.bind
  intro tag
  split
  case h_1 => exact incremental_fail id
  case h_2 =>
      apply incremental_word16.bind
      intro length
      apply (incremental_take _).bind
      intro bytes
      split
      · exact incremental_pure _
      · exact incremental_fail id
  case h_3 | h_4 => exact incremental_word32.bind fun _ => incremental_pure _
  case h_5 | h_6 => exact incremental_word64.bind fun _ => incremental_pure _
  case h_11 => exact incremental_byte.bind fun _ => incremental_word16.bind fun _ => incremental_pure _
  case h_9 | h_10 | h_13 | h_14 =>
      exact incremental_word16.bind fun _ => incremental_word16.bind fun _ => incremental_pure _
  all_goals exact incremental_word16.bind fun _ => incremental_pure _

theorem incremental_readSlots (room index : Nat) : (readSlots room index).Incremental := by
  induction room using Nat.strong_induction_on generalizing index with
  | _ room ih =>
      cases room with
      | zero => exact incremental_pure _
      | succ room =>
          rw [readSlots]
          apply (incremental_readConstant _).bind
          intro constant
          split
          · cases room with
            | zero => exact incremental_fail id
            | succ room => exact (ih room (by omega) _).bind fun _ => incremental_pure _
          · exact (ih room (by omega) _).bind fun _ => incremental_pure _

theorem incremental_read : Pool.read.Incremental := by
  apply incremental_word16.bind
  intro count
  apply (incremental_readSlots _ _).bind
  intro slots
  exact (incremental_check (neverEnds_validate _)).bind fun _ => incremental_pure _

end Pool

theorem Instruction.neverEnds_decodeFrom (length offset : Nat) (rest : Bytes) :
    NeverEnds (decodeFrom length offset rest) := by
  fun_induction decodeFrom length offset rest with
  | case1 => exact .ok _
  | case2 => exact .error id
  | case3 offset b rest op hop fault hfault =>
      -- an end inside of an instruction is blamed on the instruction
      cases fault with
      | _ => exact .error id
  | case4 offset b rest op hop i c hi hlt fault hfault ih => exact hfault ▸ ih
  | case5 => exact .ok _

namespace Attribute

variable (pool : Pool)

theorem neverEnds_checkUse (i : Instruction) : NeverEnds (checkUse pool i) := by
  rw [checkUse]
  split
  · exact .ok _
  · exact (Pool.neverEnds_require pool _ _).bind fun _ => .ok _

theorem incremental_textIndex : (textIndex pool).Incremental :=
  incremental_word16.bind fun _ => (incremental_check (Pool.neverEnds_utf8 pool _)).bind fun _ =>
    incremental_pure _

theorem incremental_classIndex : (classIndex pool).Incremental :=
  incremental_word16.bind fun _ => (incremental_check (Pool.neverEnds_className pool _)).bind fun _ =>
    incremental_pure _

theorem incremental_optionalIndex {α : Type} {resolve : UInt16 → Except Fault α}
    (h : ∀ index, NeverEnds (resolve index)) : (optionalIndex resolve).Incremental := by
  apply incremental_word16.bind
  intro index
  split
  · exact incremental_pure _
  · exact (incremental_check (h index)).bind fun _ => incremental_pure _

theorem incremental_readHandler : (readHandler pool).Incremental :=
  incremental_word16.bind fun _ => incremental_word16.bind fun _ => incremental_word16.bind fun _ =>
    (incremental_optionalIndex (Pool.neverEnds_className pool)).bind fun _ => incremental_pure _

theorem incremental_readLineNumber : readLineNumber.Incremental :=
  incremental_word16.bind fun _ => incremental_word16.bind fun _ => incremental_pure _

theorem incremental_readLocalVariable : (readLocalVariable pool).Incremental :=
  incremental_word16.bind fun _ => incremental_word16.bind fun _ =>
    (incremental_textIndex pool).bind fun _ => (incremental_textIndex pool).bind fun _ =>
      incremental_word16.bind fun _ => incremental_pure _

theorem incremental_readInnerClass : (readInnerClass pool).Incremental :=
  (incremental_classIndex pool).bind fun _ =>
    (incremental_optionalIndex (Pool.neverEnds_className pool)).bind fun _ =>
      (incremental_optionalIndex (Pool.neverEnds_utf8 pool)).bind fun _ =>
        incremental_word16.bind fun _ => incremental_pure _

theorem incremental_readCode : (readCode pool).Incremental := by
  apply incremental_word16.bind
  intro maxStack
  apply incremental_word16.bind
  intro maxLocals
  apply incremental_word32.bind
  intro length
  split
  · exact incremental_fail id
  · apply (incremental_take _).bind
    intro code
    apply (incremental_check (Instruction.neverEnds_decodeFrom _ _ _)).bind
    intro instructions
    apply (incremental_check (.forM (neverEnds_checkUse pool) _)).bind
    intro _
    exact (incremental_counted (incremental_readHandler pool)).bind fun _ => incremental_pure _

theorem incremental_readCodeHead : (readCodeHead pool).Incremental :=
  (incremental_readCode pool).bind fun _ => incremental_word16.bind fun _ => incremental_pure _

theorem incremental_flatBody {name : String} {body : Reader Attribute}
    (h : flatBody? pool name = some body) : body.Incremental := by
  unfold flatBody? at h
  split at h
  case h_10 => cases h
  all_goals obtain rfl := Option.some.inj h
  case h_1 =>
      exact incremental_word16.bind fun _ =>
        (incremental_check (Pool.neverEnds_require pool _ _)).bind fun _ => incremental_pure _
  case h_2 => exact (incremental_counted (incremental_classIndex pool)).bind fun _ => incremental_pure _
  case h_3 | h_4 => exact (incremental_textIndex pool).bind fun _ => incremental_pure _
  case h_5 => exact (incremental_counted incremental_readLineNumber).bind fun _ => incremental_pure _
  case h_6 =>
      exact (incremental_counted (incremental_readLocalVariable pool)).bind fun _ => incremental_pure _
  case h_7 =>
      exact (incremental_counted (incremental_readInnerClass pool)).bind fun _ => incremental_pure _
  case h_8 | h_9 => exact incremental_pure _

theorem incremental_readFrame : (readFrame pool).Incremental :=
  incremental_word16.bind fun _ => (incremental_check (Pool.neverEnds_utf8 pool _)).bind fun _ =>
    incremental_word32.bind fun _ => (incremental_take _).bind fun _ => incremental_pure _

theorem neverEnds_finish (frame : Frame) (attr : Attribute) (c : Cursor) :
    NeverEnds (finish frame attr c) := by
  rw [finish]
  split
  · exact .ok _
  · exact .error id

mutual

/-- The bodies of frames are whole: where one ends too early, the fault points into it. -/
theorem ends_ofFrame (frame : Frame) {offset needed : Nat}
    (h : ofFrame pool frame = .error (.unexpectedEnd offset needed)) :
    offset ≤ frame.info.length ∧ 0 < needed := by
  have hsize : (Cursor.start frame.info).pos + (Cursor.start frame.info).rest.length =
      frame.info.length := Nat.zero_add _
  rw [ofFrame] at h
  split at h
  · split at h
    next fault hfault =>
      obtain rfl := Except.error.inj h
      exact hsize ▸ (incremental_readCodeHead pool).ends hfault
    next body count c hhead =>
      have hlt := length_of_readCodeHead hhead
      rw [← hsize, ← (incremental_readCodeHead pool).advances.end_eq hhead]
      split at h
      next fault hfault =>
        obtain rfl := Except.error.inj h
        exact ends_readFrames count c hfault
      next => exact absurd trivial (neverEnds_finish _ _ _ _ h)
  · split at h
    · cases h
    next reader hreader =>
      split at h
      next fault hfault =>
        obtain rfl := Except.error.inj h
        exact hsize ▸ (incremental_flatBody pool hreader).ends hfault
      next => exact absurd trivial (neverEnds_finish _ _ _ _ h)
termination_by frame.info.length
decreasing_by exact hlt

theorem ends_readFrames (count : Nat) (c : Cursor) {offset needed : Nat}
    (h : readFrames pool count c = .error (.unexpectedEnd offset needed)) :
    offset ≤ c.pos + c.rest.length ∧ 0 < needed := by
  cases count with
  | zero =>
      rw [readFrames] at h
      cases h
  | succ count =>
      rw [readFrames] at h
      split at h
      next fault hfault =>
        obtain rfl := Except.error.inj h
        exact (incremental_readFrame pool).ends hfault
      next frame d hframe =>
        have hsize := length_of_readFrame hframe
        have hend := (incremental_readFrame pool).advances.end_eq hframe
        split at h
        next fault hfault =>
          obtain rfl := Except.error.inj h
          have hbody := ends_ofFrame frame hfault
          omega
        next attr hattr =>
          split at h
          next fault hfault =>
            obtain rfl := Except.error.inj h
            rw [← hend]
            exact ends_readFrames count d hfault
          next => cases h
termination_by c.rest.length
decreasing_by all_goals omega

end

theorem readFrames_succ (count : Nat) :
    readFrames pool (count + 1) = (do
      let frame ← readFrame pool
      let attr ← check (ofFrame pool frame)
      let attributes ← (readFrames pool count : Reader (List Attribute))
      return attr :: attributes : Reader (List Attribute)) := by
  funext c
  rw [readFrames]
  split
  next fault hframe => simp only [bind, Reader.bind, hframe]
  next frame d hframe =>
    simp only [bind, Reader.bind, hframe, check]
    cases ofFrame pool frame with
    | error fault => rfl
    | ok attr =>
        dsimp only
        cases readFrames pool count d <;> rfl

theorem incremental_readFrames (count : Nat) :
    Reader.Incremental (readFrames pool count : Reader (List Attribute)) := by
  have hstable : Reader.Stable (readFrames pool count : Reader (List Attribute)) := by
    induction count with
    | zero =>
        have hzero : readFrames pool 0 = (pure [] : Reader (List Attribute)) := by
          funext c
          rw [readFrames]
          rfl
        exact hzero ▸ stable_pure []
    | succ count ih =>
        rw [readFrames_succ]
        exact (incremental_readFrame pool).toStable.bind fun frame => (stable_check _).bind fun _ =>
          ih.bind fun _ => stable_pure _
  exact { toStable := hstable, ends := ends_readFrames pool count _ }

theorem incremental_readAll : (readAll pool).Incremental :=
  incremental_word16.bind fun count => incremental_readFrames pool count.toNat

end Attribute

theorem Member.incremental_read (pool : Pool) : (Member.read pool).Incremental :=
  incremental_word16.bind fun _ => (Attribute.incremental_textIndex pool).bind fun _ =>
    (Attribute.incremental_textIndex pool).bind fun _ =>
      (Attribute.incremental_readAll pool).bind fun _ => incremental_pure _

namespace ClassFile

theorem incremental_readMagic : readMagic.Incremental := by
  apply incremental_word32.bind
  intro word
  split
  · exact incremental_pure _
  · exact incremental_fail id

theorem incremental_readVersion : readVersion.Incremental := by
  apply incremental_word16.bind
  intro minor
  apply incremental_word16.bind
  intro major
  split
  · exact incremental_pure _
  · exact incremental_fail id

theorem incremental_readClass : readClass.Incremental := by
  apply incremental_readMagic.bind
  intro _
  apply incremental_readVersion.bind
  intro version
  apply Pool.incremental_read.bind
  intro pool
  apply incremental_word16.bind
  intro access
  apply (Attribute.incremental_classIndex pool).bind
  intro this
  apply (Attribute.incremental_optionalIndex (Pool.neverEnds_className pool)).bind
  intro super
  apply (incremental_counted (Attribute.incremental_classIndex pool)).bind
  intro interfaces
  apply (incremental_counted (Member.incremental_read pool)).bind
  intro fields
  apply (incremental_counted (Member.incremental_read pool)).bind
  intro methods
  exact (Attribute.incremental_readAll pool).bind fun _ => incremental_pure _

theorem readClass_of_read {bytes : Bytes} {c : ClassFile} (h : read bytes = .ok c) :
    ∃ d, readClass (.start bytes) = .ok (c, d) ∧ d.rest = [] := by
  rw [read] at h
  split at h
  · cases h
  next result d hread =>
    split at h
    next hrest =>
      obtain rfl := Except.ok.inj h
      exact ⟨d, hread, List.isEmpty_iff.1 hrest⟩
    next => cases h

theorem read_append {bytes more : Bytes} {c : ClassFile} (h : read bytes = .ok c) (hmore : more ≠ []) :
    read (bytes ++ more) = .error (.trailingBytes more.length) := by
  obtain ⟨d, hread, hrest⟩ := readClass_of_read h
  have hmore' : (d.append more).rest = more := by rw [Cursor.append, hrest, List.nil_append]
  have happend : readClass (.start (bytes ++ more)) = .ok (c, d.append more) :=
    incremental_readClass.ok hread more
  rw [read, happend]
  simp only [hmore', List.isEmpty_iff, if_neg hmore]

theorem read_take {bytes : Bytes} {c : ClassFile} (h : read bytes = .ok c) {k : Nat}
    (hk : k < bytes.length) :
    ∃ offset needed, read (bytes.take k) = .error (.unexpectedEnd offset needed) ∧
      offset ≤ k ∧ 1 ≤ needed := by
  obtain ⟨d, hread, hrest⟩ := readClass_of_read h
  have hbytes : (Cursor.start (bytes.take k)).append (bytes.drop k) = .start bytes := by
    rw [Cursor.append, Cursor.start, Cursor.start, List.take_append_drop]
  rw [← hbytes] at hread
  cases hcut : readClass (.start (bytes.take k)) with
  | ok p =>
      -- then the class ends before the cut, with bytes left over
      obtain ⟨result, e⟩ := p
      have hall := incremental_readClass.ok hcut (bytes.drop k)
      rw [hread] at hall
      obtain ⟨rfl, rfl⟩ := Prod.mk.inj (Except.ok.inj hall)
      have hempty : bytes.drop k = [] := (List.append_eq_nil_iff.1 hrest).2
      rw [List.drop_eq_nil_iff] at hempty
      omega
  | error fault =>
      by_cases hend : fault.IsEnd
      · cases fault with
        | unexpectedEnd offset needed =>
            obtain ⟨hle, hpos⟩ := incremental_readClass.ends hcut
            refine ⟨offset, needed, by rw [read, hcut], ?_, hpos⟩
            simpa [Cursor.start, Nat.le_of_lt hk] using hle
        | _ => cases hend
      · have hall := incremental_readClass.error hcut hend (bytes.drop k)
        rw [hread] at hall
        cases hall

/-- No class file is the beginning of another one. Where one is cut short, reading ends at the cut;
what follows one is counted. -/
theorem read_prefix_free {bytes : Bytes} {c : ClassFile} (h : read bytes = .ok c) :
    (∀ k < bytes.length, ∃ offset needed,
      read (bytes.take k) = .error (.unexpectedEnd offset needed) ∧ offset ≤ k ∧ 1 ≤ needed) ∧
    ∀ more ≠ [], read (bytes ++ more) = .error (.trailingBytes more.length) :=
  ⟨fun _ hk => read_take h hk, fun _ hmore => read_append h hmore⟩

theorem read_prefix_free_sample :
    read sample.encode = .ok sample ∧
      (∃ offset needed, read (sample.encode.take 90) = .error (.unexpectedEnd offset needed) ∧
        offset ≤ 90 ∧ 1 ≤ needed) ∧
      read (sample.encode ++ [0xCA, 0xFE]) = .error (.trailingBytes 2) := by
  have hread := read_encode wellFormed_sample
  have hlong : 90 < sample.encode.length := by decide +kernel
  obtain ⟨hcut, hmore⟩ := read_prefix_free hread
  exact ⟨hread, hcut 90 hlong, hmore [0xCA, 0xFE] (by decide)⟩

theorem readClass_of_read_eq_error {bytes : Bytes} {fault : Fault} (h : read bytes = .error fault)
    (htrailing : ∀ count, fault ≠ .trailingBytes count) :
    readClass (.start bytes) = .error fault := by
  rw [read] at h
  split at h
  next other hother => rw [hother, Except.error.inj h]
  next c d hread =>
    split at h
    · cases h
    · exact absurd (Except.error.inj h).symm (htrailing _)

/-- A fault that was found before the input ended stays the same, whatever follows the input. -/
theorem read_error_append {bytes : Bytes} {fault : Fault} (h : read bytes = .error fault)
    (hend : ∀ offset needed, fault ≠ .unexpectedEnd offset needed)
    (htrailing : ∀ count, fault ≠ .trailingBytes count) (more : Bytes) :
    read (bytes ++ more) = .error fault := by
  have hfault := readClass_of_read_eq_error h htrailing
  have hnever : ¬fault.IsEnd := by
    intro hisEnd
    cases fault with
    | unexpectedEnd offset needed => exact hend offset needed rfl
    | _ => cases hisEnd
  have happend : readClass (.start (bytes ++ more)) = .error fault :=
    incremental_readClass.error hfault hnever more
  rw [read, happend]

theorem read_error_append_sample :
    read (sample.encode.set 100 0xCB) = .error (.unknownOpcode 0xCB 3) ∧
      read (sample.encode.set 100 0xCB ++ [0xCA, 0xFE, 0xBA, 0xBE]) =
        .error (.unknownOpcode 0xCB 3) := by
  have hread : read (sample.encode.set 100 0xCB) = .error (.unknownOpcode 0xCB 3) :=
    Checks.error?_eq_some.1 (by decide +kernel)
  exact ⟨hread, read_error_append hread nofun nofun [0xCA, 0xFE, 0xBA, 0xBE]⟩

end ClassFile

end ClassListing
