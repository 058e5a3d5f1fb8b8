import ClassListing.Proofs.Layout.Pool
import ClassListing.Proofs.Listing.Code

namespace ClassListing.Pool

open Checks
open Reader (word16 check)

variable {pool : Pool} {index : UInt16} {fault : Fault}

def NamesClass (pool : Pool) (index : UInt16) : Prop :=
  ∃ name, pool.get? index = some (.classRef name) ∧ pool.HasKind [.utf8] name

def NamesSignature (pool : Pool) (index : UInt16) : Prop :=
  ∃ name descriptor, pool.get? index = some (.nameAndType name descriptor) ∧
    pool.HasKind [.utf8] name ∧ pool.HasKind [.utf8] descriptor

def handleKinds (code : UInt8) : List ConstantKind :=
  match code.toNat with
  | 1 | 2 | 3 | 4 => [.member .field]
  | 5 | 8 => [.member .method]
  | 6 | 7 => [.member .method, .member .interfaceMethod]
  | 9 => [.member .interfaceMethod]
  | _ => []

/-- The entries that an entry needs are there, and they are of the right kinds. -/
def Resolves (pool : Pool) : Constant → Prop
  | .utf8 _ | .integer _ | .float _ | .long _ | .double _ => True
  | .classRef text | .module text | .package text | .string text | .methodType text =>
    pool.HasKind [.utf8] text
  | .nameAndType name descriptor => pool.HasKind [.utf8] name ∧ pool.HasKind [.utf8] descriptor
  | .member _ owner nameAndType => pool.NamesClass owner ∧ pool.NamesSignature nameAndType
  | .dynamic _ nameAndType | .invokeDynamic _ nameAndType => pool.NamesSignature nameAndType
  | .methodHandle code target =>
    (1 ≤ code.toNat ∧ code.toNat ≤ 9) ∧ pool.HasKind (handleKinds code) target

/-- The fault where there is no entry at an index, or one that its use does not admit. -/
def Misses (pool : Pool) (role : Role) (index : UInt16) (fault : Fault) : Prop :=
  (pool.get? index = none ∧ fault = .badIndex index) ∨
    ∃ constant, pool.get? index = some constant ∧ role.admits constant.kind = false ∧
      fault = .wrongKind index role constant.kind

def MissesClass (pool : Pool) (index : UInt16) (fault : Fault) : Prop :=
  pool.Misses .classRef index fault ∨
    ∃ name, pool.get? index = some (.classRef name) ∧ pool.Misses .text name fault

def MissesTexts (pool : Pool) (name descriptor : UInt16) (fault : Fault) : Prop :=
  pool.Misses .text name fault ∨ pool.HasKind [.utf8] name ∧ pool.Misses .text descriptor fault

def MissesSignature (pool : Pool) (index : UInt16) (fault : Fault) : Prop :=
  pool.Misses .nameAndType index fault ∨
    ∃ name descriptor, pool.get? index = some (.nameAndType name descriptor) ∧
      pool.MissesTexts name descriptor fault

/-- The fault of the entry at an index that does not resolve. A member's signature comes before its
class, and the target of a handle before the handle's code. -/
def Blames (pool : Pool) (index : UInt16) (fault : Fault) : Constant → Prop
  | .utf8 _ | .integer _ | .float _ | .long _ | .double _ => False
  | .classRef text | .module text | .package text | .string text | .methodType text =>
    pool.Misses .text text fault
  | .nameAndType name descriptor => pool.MissesTexts name descriptor fault
  | .member _ owner nameAndType =>
    pool.MissesSignature nameAndType fault ∨
      pool.NamesSignature nameAndType ∧ pool.MissesClass owner fault
  | .dynamic _ nameAndType | .invokeDynamic _ nameAndType => pool.MissesSignature nameAndType fault
  | .methodHandle code target =>
    match ReferenceKind.ofCode? code with
    | some kind => pool.Misses kind.role target fault
    | none =>
      if (pool.get? target).isSome then fault = .badReferenceKind index code
      else fault = .badIndex target

theorem get_eq_error :
    pool.get index = .error fault ↔ pool.get? index = none ∧ fault = .badIndex index := by
  rw [get]
  cases pool.get? index with
  | none => simp [eq_comm]
  | some constant => simp

theorem succeeds_get : Succeeds (pool.get index) ↔ (pool.get? index).isSome = true := by
  simp only [Succeeds, get_eq_ok, Option.isSome_iff_exists]

theorem throw_eq_error {α : Type} {e : Fault} : (throw e : Except Fault α) = .error fault ↔ fault = e := by
  change Except.error e = .error fault ↔ _
  rw [Except.error.injEq, eq_comm]

theorem pure_ne_error {α : Type} {a : α} : (pure a : Except Fault α) ≠ .error fault := by
  intro h
  cases h

theorem lookup_eq_error {α : Type} (role : Role) {f : Constant → Except Fault α} {P : Constant → Prop}
    (hadmits : ∀ constant, role.admits constant.kind = true → (f constant = .error fault ↔ P constant))
    (hother : ∀ constant, role.admits constant.kind = false →
      (f constant = .error fault ↔ fault = .wrongKind index role constant.kind)) :
    (pool.get index >>= f) = .error fault ↔ pool.Misses role index fault ∨
      ∃ constant, pool.get? index = some constant ∧ role.admits constant.kind = true ∧ P constant := by
  rw [bind_eq_error, get_eq_error, Misses, or_assoc, ← exists_or]
  apply or_congr_right
  apply exists_congr
  intro constant
  rw [get_eq_ok, ← and_or_left]
  apply and_congr_right
  intro _
  cases hrole : role.admits constant.kind with
  | true => simp [hadmits constant hrole]
  | false => simp [hother constant hrole]

theorem require_eq_error {role : Role} :
    pool.require role index = .error fault ↔ pool.Misses role index fault := by
  rw [require, lookup_eq_error role (P := fun _ => False)]
  · simp
  · intro constant hrole
    rw [if_pos hrole]
    simp [pure_ne_error]
  · intro constant hrole
    rw [if_neg (by simp [hrole]), throw_eq_error]

theorem utf8_eq_error : pool.utf8 index = .error fault ↔ pool.Misses .text index fault := by
  rw [utf8, lookup_eq_error .text (P := fun _ => False)]
  · simp
  · intro constant hrole
    cases constant with
    | utf8 text => simp [pure_ne_error]
    | _ => cases hrole
  · intro constant hrole
    cases constant with
    | utf8 text => cases hrole
    | _ => exact throw_eq_error

theorem className_eq_error : pool.className index = .error fault ↔ pool.MissesClass index fault := by
  rw [className, lookup_eq_error .classRef
    (P := fun constant => ∃ name, constant = .classRef name ∧ pool.Misses .text name fault)]
  · apply or_congr_right
    constructor
    · rintro ⟨_, hget, -, name, rfl, hname⟩
      exact ⟨name, hget, hname⟩
    · rintro ⟨name, hget, hname⟩
      exact ⟨_, hget, rfl, name, rfl, hname⟩
  · intro constant hrole
    cases constant with
    | classRef name => simp [utf8_eq_error]
    | _ => cases hrole
  · intro constant hrole
    cases constant with
    | classRef name => cases hrole
    | _ => exact throw_eq_error

theorem texts_eq_error {α : Type} {name descriptor : UInt16} {f : String → String → α} :
    (do return f (← pool.utf8 name) (← pool.utf8 descriptor)) = .error fault ↔
      pool.MissesTexts name descriptor fault := by
  rw [map₂_eq_error, utf8_eq_error, utf8_eq_error, succeeds_utf8, MissesTexts]

theorem signature_eq_error :
    pool.signature index = .error fault ↔ pool.MissesSignature index fault := by
  rw [signature, lookup_eq_error .nameAndType (P := fun constant => ∃ name descriptor,
    constant = .nameAndType name descriptor ∧ pool.MissesTexts name descriptor fault)]
  · apply or_congr_right
    constructor
    · rintro ⟨_, hget, -, name, descriptor, rfl, htexts⟩
      exact ⟨name, descriptor, hget, htexts⟩
    · rintro ⟨name, descriptor, hget, htexts⟩
      exact ⟨_, hget, rfl, name, descriptor, rfl, htexts⟩
  · intro constant hrole
    cases constant with
    | nameAndType name descriptor =>
        simp only [Constant.nameAndType.injEq]
        rw [texts_eq_error]
        constructor
        · intro h
          exact ⟨name, descriptor, ⟨rfl, rfl⟩, h⟩
        · rintro ⟨_, _, ⟨rfl, rfl⟩, h⟩
          exact h
    | _ => cases hrole
  · intro constant hrole
    cases constant with
    | nameAndType name descriptor => cases hrole
    | _ => exact throw_eq_error

theorem succeeds_signature : Succeeds (pool.signature index) ↔ pool.NamesSignature index := by
  constructor
  · rintro ⟨s, hs⟩
    obtain ⟨name, descriptor, hget, hname, hdescriptor⟩ := signature_eq_ok.1 hs
    exact ⟨name, descriptor, hget, succeeds_utf8.1 ⟨_, utf8_eq_ok.2 hname⟩,
      succeeds_utf8.1 ⟨_, utf8_eq_ok.2 hdescriptor⟩⟩
  · rintro ⟨name, descriptor, hget, hname, hdescriptor⟩
    obtain ⟨n, hn⟩ := succeeds_utf8.2 hname
    obtain ⟨d, hd⟩ := succeeds_utf8.2 hdescriptor
    exact ⟨⟨n, d⟩, signature_eq_ok.2 ⟨name, descriptor, hget, utf8_eq_ok.1 hn, utf8_eq_ok.1 hd⟩⟩

theorem succeeds_className_iff : Succeeds (pool.className index) ↔ pool.NamesClass index := by
  constructor
  · rintro ⟨text, htext⟩
    obtain ⟨name, hget, hname⟩ := className_eq_ok.1 htext
    exact ⟨name, hget, succeeds_utf8.1 ⟨text, utf8_eq_ok.2 hname⟩⟩
  · rintro ⟨name, hget, hname⟩
    obtain ⟨text, htext⟩ := succeeds_utf8.2 hname
    exact ⟨text, className_eq_ok.2 ⟨name, hget, utf8_eq_ok.1 htext⟩⟩

theorem member_eq_error {kind : MemberKind} {owner nameAndType : UInt16}
    (hget : pool.get? index = some (.member kind owner nameAndType)) :
    pool.member index = .error fault ↔ pool.MissesSignature nameAndType fault ∨
      pool.NamesSignature nameAndType ∧ pool.MissesClass owner fault := by
  rw [member, get_eq_ok.2 hget]
  change (do
    let signature ← pool.signature nameAndType
    return ⟨← pool.className owner, signature⟩ : Except Fault MemberRef) = .error fault ↔ _
  rw [map₂_eq_error, signature_eq_error, succeeds_signature, className_eq_error]

theorem succeeds_member {kind : MemberKind} {owner nameAndType : UInt16}
    (hget : pool.get? index = some (.member kind owner nameAndType)) :
    Succeeds (pool.member index) ↔ pool.NamesClass owner ∧ pool.NamesSignature nameAndType := by
  rw [← succeeds_className_iff, ← succeeds_signature]
  constructor
  · rintro ⟨m, hm⟩
    obtain ⟨_, _, _, hother, hsignature, howner⟩ := member_eq_ok.1 hm
    obtain ⟨⟩ := hget.symm.trans hother
    exact ⟨⟨_, howner⟩, ⟨_, hsignature⟩⟩
  · rintro ⟨⟨owner, howner⟩, ⟨signature, hsignature⟩⟩
    exact ⟨⟨owner, signature⟩, member_eq_ok.2 ⟨_, _, _, hget, hsignature, howner⟩⟩

theorem ofCode?_cases (code : UInt8) :
    (ReferenceKind.ofCode? code = none ∧ ¬(1 ≤ code.toNat ∧ code.toNat ≤ 9)) ∨
      ∃ kind, ReferenceKind.ofCode? code = some kind ∧ (1 ≤ code.toNat ∧ code.toNat ≤ 9) ∧
        kind.role.kinds = handleKinds code := by
  have hall : ∀ n < 256, (ReferenceKind.ofCode? (UInt8.ofNat n) = none ∧ ¬(1 ≤ n ∧ n ≤ 9)) ∨
      ∃ kind ∈ ReferenceKind.ofCode? (UInt8.ofNat n), (1 ≤ n ∧ n ≤ 9) ∧
        kind.role.kinds = handleKinds (UInt8.ofNat n) := by decide +kernel
  have hcode := hall code.toNat code.toNat_lt
  rw [UInt8.ofNat_toNat] at hcode
  exact hcode

theorem checkHandle_eq_error {code : UInt8} {target : UInt16} :
    pool.checkHandle index code target = .error fault ↔
      pool.Blames index fault (.methodHandle code target) := by
  rw [checkHandle, then_eq_error, get_eq_error, succeeds_get, Blames]
  cases ReferenceKind.ofCode? code with
  | none =>
      dsimp only
      rw [throw_eq_error]
      cases pool.get? target with
      | none => simp
      | some constant => simp
  | some kind =>
      dsimp only
      rw [map_eq_error, require_eq_error, Misses]
      cases pool.get? target with
      | none => simp
      | some constant => simp

theorem checkHandle_eq_ok {code : UInt8} {target : UInt16} :
    pool.checkHandle index code target = .ok () ↔ pool.Resolves (.methodHandle code target) := by
  rw [checkHandle, then_eq_ok, succeeds_get, Resolves]
  rcases ofCode?_cases code with ⟨hnone, hcode⟩ | ⟨kind, hkind, hcode, hkinds⟩
  · simp [hnone, hcode]
  · simp only [hkind]
    rw [discard_eq_ok, succeeds_require (Role.admits_iff_mem hkinds)]
    constructor
    · rintro ⟨-, htarget⟩
      exact ⟨hcode, htarget⟩
    · rintro ⟨-, constant, hget, hkind⟩
      exact ⟨by rw [hget]; rfl, constant, hget, hkind⟩

theorem checkEntry_eq_error {constant : Constant} (hget : pool.get? index = some constant) :
    pool.checkEntry index constant = .error fault ↔ pool.Blames index fault constant := by
  cases constant with
  | utf8 | integer | float | long | double => simp [checkEntry, Blames, pure_ne_error]
  | classRef text | module text | package text | string text | methodType text =>
      exact map_eq_error.trans utf8_eq_error
  | nameAndType name descriptor => exact texts_eq_error
  | member kind owner nameAndType => exact map_eq_error.trans (member_eq_error hget)
  | dynamic bootstrap nameAndType | invokeDynamic bootstrap nameAndType =>
      exact map_eq_error.trans signature_eq_error
  | methodHandle code target => exact checkHandle_eq_error

theorem checkEntry_eq_ok {constant : Constant} (hget : pool.get? index = some constant) :
    pool.checkEntry index constant = .ok () ↔ pool.Resolves constant := by
  cases constant with
  | utf8 | integer | float | long | double => simp [checkEntry, Resolves]
  | classRef text | module text | package text | string text | methodType text =>
      exact discard_eq_ok.trans succeeds_utf8
  | nameAndType name descriptor =>
      exact then_eq_ok.trans (and_congr succeeds_utf8 (discard_eq_ok.trans succeeds_utf8))
  | member kind owner nameAndType =>
      exact discard_eq_ok.trans (succeeds_member hget)
  | dynamic bootstrap nameAndType | invokeDynamic bootstrap nameAndType =>
      exact discard_eq_ok.trans succeeds_signature
  | methodHandle code target => exact checkHandle_eq_ok

theorem blames_iff {constant : Constant} (hget : pool.get? index = some constant) :
    (∃ fault, pool.Blames index fault constant) ↔ ¬pool.Resolves constant := by
  rw [← checkEntry_eq_ok hget]
  simp only [← checkEntry_eq_error hget]
  cases pool.checkEntry index constant with
  | error fault => simp
  | ok => simp

theorem valid_iff_resolves :
    pool.Valid ↔ ∀ index constant, pool.get? index = some constant → pool.Resolves constant := by
  constructor
  · intro h index constant hget
    exact (checkEntry_eq_ok hget).1 (h index constant hget)
  · intro h index constant hget
    exact (checkEntry_eq_ok hget).2 (h index constant hget)

theorem pairwise_entries (hsize : pool.size ≤ 65536) :
    pool.entries.Pairwise fun a b => a.1 < b.1 := by
  rw [entries, List.pairwise_filterMap, List.pairwise_iff_getElem]
  intro i j hi hj hij a ha b hb
  rw [List.getElem_zipIdx, Option.map_eq_some_iff] at ha hb
  obtain ⟨_, -, rfl⟩ := ha
  obtain ⟨_, -, rfl⟩ := hb
  rw [List.length_zipIdx, Array.length_toList] at hi hj
  have hback {n : Nat} (h : n < pool.slots.size) : (0 + n).toUInt16.toNat = n := by
    rw [Nat.zero_add]
    exact UInt16.toNat_ofNat_of_lt (Nat.lt_of_lt_of_le h hsize)
  rw [UInt16.lt_iff_toNat_lt, hback hi, hback hj]
  exact hij

theorem validate_eq_error (hsize : pool.size ≤ 65536) :
    pool.validate = .error fault ↔
      ∃ index constant, pool.get? index = some constant ∧ pool.Blames index fault constant ∧
        ∀ earlier < index, ∀ other, pool.get? earlier = some other → pool.Resolves other := by
  have hasymm (a b : UInt16 × Constant) (h : a.1 < b.1) : ¬b.1 < a.1 := UInt16.lt_asymm h
  rw [validate, forM_eq_error, firstFailure_iff_least hasymm (pairwise_entries hsize)]
  simp only [Prod.exists, Prod.forall, mem_entries hsize, succeeds_unit]
  constructor
  · rintro ⟨index, constant, hget, hfail, hbefore⟩
    refine ⟨index, constant, hget, (checkEntry_eq_error hget).1 hfail, ?_⟩
    intro earlier hlt other hother
    exact (checkEntry_eq_ok hother).1 (hbefore earlier other hother hlt)
  · rintro ⟨index, constant, hget, hblames, hbefore⟩
    refine ⟨index, constant, hget, (checkEntry_eq_error hget).2 hblames, ?_⟩
    intro earlier other hother hlt
    exact (checkEntry_eq_ok hother).2 (hbefore earlier hlt other hother)

/-- The entries of a pool, before any index in them is followed. -/
def readEntries : Reader Pool := do
  let count ← word16
  let slots ← readSlots (count.toNat - 1) 1
  return ⟨(none :: slots).toArray⟩

theorem size_of_readEntries {c c' : Cursor} (h : readEntries c = .ok (pool, c')) :
    pool.size ≤ 65536 := by
  obtain ⟨count, d, -, h⟩ := Reader.bind_eq_ok.1 h
  obtain ⟨slots, d', hslots, h⟩ := Reader.bind_eq_ok.1 h
  obtain ⟨rfl, -⟩ := Reader.pure_eq_ok.1 h
  obtain ⟨_, ⟨hlen, -⟩, -⟩ := (reads_readSlots ⟨#[]⟩ _ _ _ _ _).1 hslots
  have hcount := count.toNat_lt
  simp only [size, List.size_toArray, List.length_cons, hlen]
  omega

theorem read_of_readEntries {c c' : Cursor} (h : readEntries c = .ok (pool, c')) :
    read c = (do pool.validate; return (pool, c')) := by
  obtain ⟨count, d, hcount, h⟩ := Reader.bind_eq_ok.1 h
  obtain ⟨slots, d', hslots, h⟩ := Reader.bind_eq_ok.1 h
  obtain ⟨rfl, rfl⟩ := Reader.pure_eq_ok.1 h
  simp only [read, bind, Reader.bind, hcount, hslots, check]
  cases (⟨(none :: slots).toArray⟩ : Pool).validate with
  | error fault => rfl
  | ok => rfl

theorem describe_of_get_eq_error (h : pool.get index = .error fault) :
    pool.describe index = .error fault ∧ pool.operandComment index = .error fault := by
  rw [describe, operandComment, h]
  exact ⟨rfl, rfl⟩

theorem Valid.succeeds_describe (valid : pool.Valid) {constant : Constant}
    (h : pool.get? index = some constant) :
    Succeeds (pool.describe index) ∧ Succeeds (pool.operandComment index) := by
  obtain ⟨text, htext, -⟩ := says_describe valid h
  refine ⟨⟨text, htext⟩, constant.kind.operandLabel ++ " " ++ text, ?_⟩
  rw [operandComment, get_eq_ok.2 h, htext]
  rfl

/-- Describing what stands at an index fails only where nothing does, and following the target of a
handle, and the target of that, comes to an end. -/
structure TotalAt (pool : Pool) (index : UInt16) : Prop where
  describe_iff : Succeeds (pool.describe index) ↔ Succeeds (pool.get index)
  operandComment_iff : Succeeds (pool.operandComment index) ↔ Succeeds (pool.get index)
  describe_error : ¬Succeeds (pool.get index) → pool.describe index = .error (.badIndex index)
  operandComment_error :
    ¬Succeeds (pool.get index) → pool.operandComment index = .error (.badIndex index)
  describes_iff : ∀ result, pool.Describes index result ↔ result = pool.describe index

theorem Valid.totalAt (valid : pool.Valid) (index : UInt16) : pool.TotalAt index := by
  cases hget : pool.get? index with
  | some constant =>
      have hsome : Succeeds (pool.get index) := ⟨constant, get_eq_ok.2 hget⟩
      obtain ⟨hdescribe, hcomment⟩ := valid.succeeds_describe hget
      exact ⟨iff_of_true hdescribe hsome, iff_of_true hcomment hsome, absurd hsome, absurd hsome,
        fun _ => valid.describes_iff⟩
  | none =>
      have hnone : ¬Succeeds (pool.get index) := by simp [succeeds_get, hget]
      obtain ⟨hdescribe, hcomment⟩ := describe_of_get_eq_error (get_eq_error.2 ⟨hget, rfl⟩)
      refine ⟨iff_of_false ?_ hnone, iff_of_false ?_ hnone, fun _ => hdescribe, fun _ => hcomment,
        fun _ => valid.describes_iff⟩
      · simp [Succeeds, hdescribe]
      · simp [Succeeds, hcomment]

/-- A pool whose entries can be read is accepted if all of them resolve, and refused for the one
of least index that does not. In a pool that is accepted every entry has a description. -/
theorem read_validates {c c' : Cursor} (h : readEntries c = .ok (pool, c')) :
    (∀ result, read c = .ok result ↔ result = (pool, c') ∧
        ∀ index constant, pool.get? index = some constant → pool.Resolves constant) ∧
      (∀ fault, read c = .error fault ↔
        ∃ index constant, pool.get? index = some constant ∧ ¬pool.Resolves constant ∧
          pool.Blames index fault constant ∧
          ∀ earlier < index, ∀ other, pool.get? earlier = some other → pool.Resolves other) ∧
      (read c = .ok (pool, c') → ∀ index, pool.TotalAt index) := by
  have hsize := size_of_readEntries h
  have hok (result : Pool × Cursor) : read c = .ok result ↔ result = (pool, c') ∧ pool.Valid := by
    rw [read_of_readEntries h, then_eq_ok, succeeds_unit, validate_eq_ok hsize, pure_eq_ok,
      and_comm, eq_comm]
  refine ⟨fun result => ?_, fun fault => ?_, fun hread => ?_⟩
  · rw [hok, valid_iff_resolves]
  · rw [read_of_readEntries h, map_eq_error, validate_eq_error hsize]
    constructor
    · rintro ⟨index, constant, hget, hblames, hbefore⟩
      exact ⟨index, constant, hget, (blames_iff hget).1 ⟨fault, hblames⟩, hblames, hbefore⟩
    · rintro ⟨index, constant, hget, -, hblames, hbefore⟩
      exact ⟨index, constant, hget, hblames, hbefore⟩
  · exact ((hok _).1 hread).2.totalAt

def fieldHandle : Pool :=
  ⟨#[none, some (.utf8 "A"), some (.classRef 1), some (.nameAndType 1 1), some (.member .field 2 3),
    some (.methodHandle 1 4)]⟩

def selfHandle : Pool :=
  ⟨#[none, some (.utf8 "A"), some (.classRef 1), some (.methodHandle 1 3)]⟩

theorem resolves_before_selfHandle {index : UInt16} (h : index < 3) {constant : Constant}
    (hget : selfHandle.get? index = some constant) : selfHandle.Resolves constant := by
  obtain rfl | rfl | rfl : index = 0 ∨ index = 1 ∨ index = 2 := by
    simp only [← UInt16.toNat_inj, UInt16.lt_iff_toNat_lt, UInt16.reduceToNat] at h ⊢
    omega
  · cases hget
  · cases hget
    trivial
  · cases hget
    change HasKind _ [.utf8] 1
    decide

theorem read_validates_sample :
    (read (.start [0, 6, 1, 0, 1, 65, 7, 0, 1, 12, 0, 1, 0, 1, 9, 0, 2, 0, 3, 15, 1, 0, 4]) =
        .ok (fieldHandle, ⟨23, []⟩) ∧ ∀ index, fieldHandle.TotalAt index) ∧
      read (.start [0, 4, 1, 0, 1, 65, 7, 0, 1, 15, 1, 0, 3]) =
        .error (.wrongKind 3 .field .methodHandle) := by
  have hfield : readEntries (.start [0, 6, 1, 0, 1, 65, 7, 0, 1, 12, 0, 1, 0, 1, 9, 0, 2, 0, 3, 15, 1,
      0, 4]) = .ok (fieldHandle, ⟨23, []⟩) := by decide +kernel
  have hself : readEntries (.start [0, 4, 1, 0, 1, 65, 7, 0, 1, 15, 1, 0, 3]) =
      .ok (selfHandle, ⟨13, []⟩) := by decide +kernel
  have hread := (read_of_readEntries hfield).trans (c := .ok (fieldHandle, ⟨23, []⟩)) (by decide)
  refine ⟨⟨hread, (read_validates hfield).2.2 hread⟩, ((read_validates hself).2.1 _).2 ?_⟩
  refine ⟨3, .methodHandle 1 3, rfl, ?_, .inr ⟨_, rfl, rfl, rfl⟩, ?_⟩
  · rintro ⟨-, hkind⟩
    revert hkind
    decide
  · intro earlier hlt other hother
    exact resolves_before_selfHandle hlt hother

end ClassListing.Pool
