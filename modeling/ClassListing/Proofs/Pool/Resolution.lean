import ClassListing.Pool.Describe
import ClassListing.Proofs.Checks

namespace ClassListing.Pool

open Checks

variable {pool : Pool} {index : UInt16}

theorem get_eq_ok {constant : Constant} :
    pool.get index = .ok constant ↔ pool.get? index = some constant := by
  rw [get]
  cases pool.get? index with
  | none => simp
  | some other => simp

theorem require_eq_ok {role : Role} {constant : Constant} :
    pool.require role index = .ok constant ↔
      pool.get? index = some constant ∧ role.admits constant.kind = true := by
  rw [require, bind_eq_ok]
  constructor
  · rintro ⟨other, hget, h⟩
    split at h
    next hrole =>
      rw [pure_eq_ok] at h
      exact ⟨get_eq_ok.1 (h ▸ hget), h ▸ hrole⟩
    next => simp at h
  · rintro ⟨hget, hrole⟩
    exact ⟨constant, get_eq_ok.2 hget, by rw [if_pos hrole]; rfl⟩

theorem utf8_eq_ok {text : String} :
    pool.utf8 index = .ok text ↔ pool.get? index = some (.utf8 text) := by
  rw [utf8, bind_eq_ok]
  constructor
  · rintro ⟨constant, hget, h⟩
    rw [get_eq_ok] at hget
    cases constant with
    | utf8 other => rw [hget, pure_eq_ok.1 h]
    | _ => simp at h
  · intro h
    exact ⟨_, get_eq_ok.2 h, rfl⟩

theorem className_eq_ok {text : String} :
    pool.className index = .ok text ↔
      ∃ name, pool.get? index = some (.classRef name) ∧ pool.get? name = some (.utf8 text) := by
  rw [className, bind_eq_ok]
  constructor
  · rintro ⟨constant, hget, h⟩
    rw [get_eq_ok] at hget
    cases constant with
    | classRef name => exact ⟨name, hget, utf8_eq_ok.1 h⟩
    | _ => simp at h
  · rintro ⟨name, hget, htext⟩
    exact ⟨_, get_eq_ok.2 hget, utf8_eq_ok.2 htext⟩

theorem signature_eq_ok {s : Signature} :
    pool.signature index = .ok s ↔
      ∃ name descriptor, pool.get? index = some (.nameAndType name descriptor) ∧
        pool.get? name = some (.utf8 s.name) ∧ pool.get? descriptor = some (.utf8 s.descriptor) := by
  rw [signature, bind_eq_ok]
  constructor
  · rintro ⟨constant, hget, h⟩
    rw [get_eq_ok] at hget
    cases constant with
    | nameAndType name descriptor =>
        simp only [bind_eq_ok, pure_eq_ok, utf8_eq_ok] at h
        obtain ⟨n, hn, d, hd, rfl⟩ := h
        exact ⟨name, descriptor, hget, hn, hd⟩
    | _ => simp at h
  · rintro ⟨name, descriptor, hget, hn, hd⟩
    refine ⟨_, get_eq_ok.2 hget, ?_⟩
    simp only [bind_eq_ok, pure_eq_ok, utf8_eq_ok]
    exact ⟨_, hn, _, hd, rfl⟩

theorem member_eq_ok {m : MemberRef} :
    pool.member index = .ok m ↔
      ∃ kind owner nameAndType, pool.get? index = some (.member kind owner nameAndType) ∧
        pool.signature nameAndType = .ok m.signature ∧ pool.className owner = .ok m.owner := by
  rw [member, bind_eq_ok]
  constructor
  · rintro ⟨constant, hget, h⟩
    rw [get_eq_ok] at hget
    cases constant with
    | member kind owner nameAndType =>
        simp only [bind_eq_ok, pure_eq_ok] at h
        obtain ⟨s, hs, o, ho, rfl⟩ := h
        exact ⟨kind, owner, nameAndType, hget, hs, ho⟩
    | _ => simp at h
  · rintro ⟨kind, owner, nameAndType, hget, hs, ho⟩
    refine ⟨_, get_eq_ok.2 hget, ?_⟩
    simp only [bind_eq_ok, pure_eq_ok]
    exact ⟨_, hs, _, ho, rfl⟩

theorem mem_entries (hsize : pool.size ≤ 65536) {constant : Constant} :
    (index, constant) ∈ pool.entries ↔ pool.get? index = some constant := by
  simp only [entries, List.mem_filterMap, Option.map_eq_some_iff, get?, Prod.mk.injEq]
  constructor
  · rintro ⟨⟨slot, n⟩, hn, _, rfl, rfl, rfl⟩
    rw [List.mk_mem_zipIdx_iff_getElem?, Array.getElem?_toList] at hn
    obtain ⟨hlt, -⟩ := Array.getElem?_eq_some_iff.1 hn
    have hback : n.toUInt16.toNat = n := UInt16.toNat_ofNat_of_lt (Nat.lt_of_lt_of_le hlt hsize)
    rw [hback, hn, Option.join_some]
  · intro h
    rw [Option.join_eq_some_iff] at h
    refine ⟨(some constant, index.toNat), ?_, constant, rfl, UInt16.ofNat_toNat, rfl⟩
    rwa [List.mk_mem_zipIdx_iff_getElem?, Array.getElem?_toList]

def Valid (pool : Pool) : Prop :=
  ∀ index constant, pool.get? index = some constant → pool.checkEntry index constant = .ok ()

theorem validate_eq_ok (hsize : pool.size ≤ 65536) : pool.validate = .ok () ↔ pool.Valid := by
  rw [validate, forM_eq_ok]
  constructor
  · intro h index constant hget
    exact h (index, constant) ((mem_entries hsize).2 hget)
  · rintro h ⟨index, constant⟩ hmem
    exact h index constant ((mem_entries hsize).1 hmem)

def HasKind (pool : Pool) (kinds : List ConstantKind) (index : UInt16) : Prop :=
  ∃ constant, pool.get? index = some constant ∧ constant.kind ∈ kinds

instance (kinds : List ConstantKind) (index : UInt16) : Decidable (pool.HasKind kinds index) :=
  match h : pool.get? index with
  | some constant => decidable_of_iff (constant.kind ∈ kinds) (by simp [HasKind, h])
  | none => isFalse (by simp [HasKind, h])

theorem succeeds_require {role : Role} {kinds : List ConstantKind}
    (h : ∀ kind, role.admits kind = true ↔ kind ∈ kinds) :
    Succeeds (pool.require role index) ↔ pool.HasKind kinds index := by
  simp only [Succeeds, require_eq_ok, HasKind, h]

theorem succeeds_utf8 : Succeeds (pool.utf8 index) ↔ pool.HasKind [.utf8] index := by
  constructor
  · rintro ⟨text, h⟩
    exact ⟨_, utf8_eq_ok.1 h, by simp [Constant.kind]⟩
  · rintro ⟨constant, hget, hkind⟩
    cases constant with
    | utf8 text => exact ⟨text, utf8_eq_ok.2 hget⟩
    | _ => simp [Constant.kind] at hkind

variable (valid : pool.Valid)
include valid

theorem Valid.utf8_of_classRef {name : UInt16} (h : pool.get? index = some (.classRef name)) :
    Succeeds (pool.utf8 name) := by
  have hcheck := valid _ _ h
  simp only [checkEntry, bind_eq_ok] at hcheck
  obtain ⟨text, htext, -⟩ := hcheck
  exact ⟨text, htext⟩

theorem Valid.succeeds_className :
    Succeeds (pool.className index) ↔ pool.HasKind [.classRef] index := by
  constructor
  · rintro ⟨text, h⟩
    obtain ⟨name, hget, -⟩ := className_eq_ok.1 h
    exact ⟨_, hget, by simp [Constant.kind]⟩
  · rintro ⟨constant, hget, hkind⟩
    cases constant with
    | classRef name =>
        obtain ⟨text, htext⟩ := valid.utf8_of_classRef hget
        exact ⟨text, className_eq_ok.2 ⟨name, hget, utf8_eq_ok.1 htext⟩⟩
    | _ => simp [Constant.kind] at hkind

theorem Valid.member_of_get {kind : MemberKind} {owner nameAndType : UInt16}
    (h : pool.get? index = some (.member kind owner nameAndType)) :
    Succeeds (pool.member index) := by
  have hcheck := valid _ _ h
  simp only [checkEntry, bind_eq_ok] at hcheck
  obtain ⟨m, hm, -⟩ := hcheck
  exact ⟨m, hm⟩

theorem Valid.member_of_handle {code : UInt8} {target : UInt16}
    (h : pool.get? index = some (.methodHandle code target)) :
    ∃ kind owner nameAndType, pool.get? target = some (.member kind owner nameAndType) := by
  have hcheck := valid _ _ h
  simp only [checkEntry, checkHandle, bind_eq_ok] at hcheck
  obtain ⟨-, -, hcheck⟩ := hcheck
  cases hkind : ReferenceKind.ofCode? code with
  | none => simp [hkind] at hcheck
  | some kind =>
      simp only [hkind, bind_eq_ok, require_eq_ok] at hcheck
      obtain ⟨constant, ⟨hget, hrole⟩, -⟩ := hcheck
      cases constant with
      | member k owner nameAndType => exact ⟨k, owner, nameAndType, hget⟩
      | _ => cases kind <;> simp [Constant.kind, ReferenceKind.role, Role.admits] at hrole

theorem Valid.signature_of_get {name descriptor : UInt16}
    (h : pool.get? index = some (.nameAndType name descriptor)) : Succeeds (pool.signature index) := by
  have hcheck := valid _ _ h
  simp only [checkEntry, bind_eq_ok] at hcheck
  obtain ⟨n, hn, d, hd, -⟩ := hcheck
  exact ⟨⟨n, d⟩, signature_eq_ok.2 ⟨name, descriptor, h, utf8_eq_ok.1 hn, utf8_eq_ok.1 hd⟩⟩

omit valid

/-- A description in which the target of a handle is described in its turn. An entry on which this
does not come to an end has none. -/
inductive Describes (pool : Pool) : UInt16 → Except Fault String → Prop
  | handle {index target : UInt16} {code : UInt8} {result : Except Fault String}
      (hget : pool.get? index = some (.methodHandle code target))
      (htarget : Describes pool target result) :
      Describes pool index (do return referenceKindName code ++ " " ++ (← result))
  | plain {index : UInt16}
      (hget : ∀ code target, pool.get? index ≠ some (.methodHandle code target)) :
      Describes pool index (pool.describe index)

include valid

theorem Valid.describe_of_handle {code : UInt8} {target : UInt16}
    (hget : pool.get? index = some (.methodHandle code target)) :
    pool.describe index = (do return referenceKindName code ++ " " ++ (← pool.describe target)) := by
  obtain ⟨kind, owner, nameAndType, htarget⟩ := valid.member_of_handle hget
  rw [describe, describe, get_eq_ok.2 hget, get_eq_ok.2 htarget]
  obtain ⟨m, hm⟩ := valid.member_of_get htarget
  change (do return referenceKindName code ++ " " ++ (← pool.member target).text) =
    (do return referenceKindName code ++ " " ++ (← (do return (← pool.member target).text)))
  rw [hm]
  rfl

/-- In a valid pool it comes to an end at every index, however the entries refer to each other. -/
theorem Valid.describes_iff {result : Except Fault String} :
    pool.Describes index result ↔ result = pool.describe index := by
  constructor
  · intro h
    induction h with
    | handle hget _ ih => rw [ih, valid.describe_of_handle hget]
    | plain => rfl
  · rintro rfl
    by_cases h : ∃ code target, pool.get? index = some (.methodHandle code target)
    · obtain ⟨code, target, hget⟩ := h
      obtain ⟨kind, owner, nameAndType, htarget⟩ := valid.member_of_handle hget
      have hmember : pool.Describes target (pool.describe target) :=
        .plain fun _ _ h => Constant.noConfusion (Option.some.inj (htarget.symm.trans h))
      rw [valid.describe_of_handle hget]
      exact .handle hget hmember
    · exact .plain fun code target hget => h ⟨code, target, hget⟩

end ClassListing.Pool
