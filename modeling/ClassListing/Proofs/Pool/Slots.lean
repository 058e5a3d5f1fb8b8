import ClassListing.Proofs.Pool.Validation
import ClassListing.Proofs.Reading
import Mathlib.Logic.Relation

namespace ClassListing

open Reader Layout

theorem ConstantKind.isWide_iff {kind : ConstantKind} :
    kind.isWide = true ↔ kind = .long ∨ kind = .double := by
  cases kind <;> simp [isWide]

theorem Constant.slots_of_wide {constant : Constant} (h : constant.kind.isWide = true) :
    constant.slots = 2 := if_pos h

theorem Constant.slots_of_narrow {constant : Constant} (h : constant.kind.isWide = false) :
    constant.slots = 1 := by
  rw [slots, h]
  rfl

namespace Pool

section Recursion

variable {room : Nat} {index : UInt16} {c d : Cursor} {constant : Constant}

theorem readSlots_of_unread {fault : Fault} (h : readConstant index c = .error fault) :
    readSlots (room + 1) index.toNat c = .error fault := by
  rw [readSlots, Nat.toUInt16_eq, UInt16.ofNat_toNat]
  simp only [bind, Reader.bind, h]

theorem readSlots_of_crosses (h : readConstant index c = .ok (constant, d))
    (hwide : constant.kind.isWide = true) :
    readSlots 1 index.toNat c = .error (.badIndex index) := by
  rw [readSlots, Nat.toUInt16_eq, UInt16.ofNat_toNat]
  simp only [bind, Reader.bind, h, hwide, if_true, fail]

theorem readSlots_of_fits (h : readConstant index c = .ok (constant, d))
    (hfits : constant.slots ≤ room) :
    readSlots room index.toNat c = do
      let (slots, e) ← readSlots (room - constant.slots) (index.toNat + constant.slots) d
      return (some constant :: List.replicate (constant.slots - 1) none ++ slots, e) := by
  cases hwide : constant.kind.isWide with
  | false =>
      rw [Constant.slots_of_narrow hwide] at hfits ⊢
      obtain ⟨room, rfl⟩ := Nat.exists_eq_add_of_le' hfits
      rw [readSlots, Nat.toUInt16_eq, UInt16.ofNat_toNat]
      simp only [bind, Reader.bind, h, hwide, Bool.false_eq_true, if_false, Nat.add_sub_cancel]
      cases readSlots room (index.toNat + 1) d <;> rfl
  | true =>
      rw [Constant.slots_of_wide hwide] at hfits ⊢
      obtain ⟨room, rfl⟩ := Nat.exists_eq_add_of_le' hfits
      rw [readSlots, Nat.toUInt16_eq, UInt16.ofNat_toNat]
      simp only [bind, Reader.bind, h, hwide, if_true, Nat.add_sub_cancel]
      cases readSlots room (index.toNat + 2) d <;> rfl

end Recursion

/-- Where the loop stands: the next index, the slots before it, and what is left to read. -/
structure Filling where
  index : UInt16
  slots : List (Option Constant)
  cursor : Cursor

namespace Filling

variable {count : UInt16} {c : Cursor} {s s' : Filling} {fault : Fault}

def start (c : Cursor) : Filling := ⟨1, [none], c⟩

def push (s : Filling) (constant : Constant) (c : Cursor) : Filling :=
  ⟨s.index + constant.slots.toUInt16,
    s.slots ++ some constant :: List.replicate (constant.slots - 1) none, c⟩

inductive Step (count : UInt16) (s : Filling) : Filling → Prop
  | push {constant : Constant} {c : Cursor} (hindex : s.index < count)
      (hread : readConstant s.index s.cursor = .ok (constant, c))
      (hfits : s.index.toNat + constant.slots ≤ count.toNat) : Step count s (s.push constant c)

inductive Stops (count : UInt16) (s : Filling) : Fault → Prop
  | unread {fault : Fault} (hindex : s.index < count)
      (hread : readConstant s.index s.cursor = .error fault) : Stops count s fault
  | crosses {constant : Constant} {c : Cursor} (hindex : s.index < count)
      (hread : readConstant s.index s.cursor = .ok (constant, c))
      (hcross : count.toNat < s.index.toNat + constant.slots) : Stops count s (.badIndex s.index)

def Reached (count : UInt16) (c : Cursor) : Filling → Prop :=
  Relation.ReflTransGen (Step count) (start c)

/-- The index is the number of slots so far, and they are no more than the count says. -/
structure InBounds (count : UInt16) (s : Filling) : Prop where
  index_eq : s.index.toNat = s.slots.length
  length_le : s.slots.length ≤ max 1 count.toNat

theorem toNat_toUInt16_slots (constant : Constant) :
    constant.slots.toUInt16.toNat = constant.slots := by
  cases h : constant.kind.isWide with
  | false => rw [Constant.slots_of_narrow h]; rfl
  | true => rw [Constant.slots_of_wide h]; rfl

theorem slots_pos (constant : Constant) : 0 < constant.slots := by
  cases h : constant.kind.isWide with
  | false => rw [Constant.slots_of_narrow h]; exact Nat.one_pos
  | true => rw [Constant.slots_of_wide h]; exact Nat.two_pos

theorem length_push (s : Filling) (constant : Constant) (c : Cursor) :
    (s.push constant c).slots.length = s.slots.length + constant.slots := by
  have hpos := slots_pos constant
  simp only [push, List.length_append, List.length_cons, List.length_replicate]
  omega

theorem toNat_index_push {constant : Constant} (hfits : s.index.toNat + constant.slots ≤ count.toNat) :
    (s.push constant c).index.toNat = s.index.toNat + constant.slots := by
  have hcount := count.toNat_lt
  rw [push, UInt16.toNat_add, toNat_toUInt16_slots, Nat.mod_eq_of_lt (by omega)]

theorem inBounds_start (count : UInt16) (c : Cursor) : (start c).InBounds count :=
  ⟨rfl, Nat.le_max_left _ _⟩

theorem InBounds.step (h : s.InBounds count) (hstep : Step count s s') : s'.InBounds count := by
  cases hstep with
  | push hindex hread hfits =>
      refine ⟨?_, ?_⟩
      · rw [toNat_index_push hfits, length_push, h.index_eq]
      · rw [length_push, ← h.index_eq]
        exact hfits.trans (Nat.le_max_right _ _)

theorem Reached.inBounds (h : Reached count c s) : s.InBounds count := by
  induction h with
  | refl => exact inBounds_start count c
  | tail _ hstep ih => exact ih.step hstep

/-- What the loop still has to do, as the recursion over the slots that are left does it. -/
def outcome (count : UInt16) (s : Filling) : Except Fault (List (Option Constant) × Cursor) := do
  let (slots, c) ← readSlots (count.toNat - s.index.toNat) s.index.toNat s.cursor
  return (s.slots ++ slots, c)

theorem outcome_of_done (h : ¬s.index < count) : outcome count s = .ok (s.slots, s.cursor) := by
  rw [UInt16.lt_iff_toNat_lt, Nat.not_lt] at h
  rw [outcome, Nat.sub_eq_zero_of_le h, readSlots]
  simp only [pure, Reader.pure, bind, Except.bind, Except.pure, List.append_nil]

theorem room_of_lt (h : s.index < count) :
    ∃ room, count.toNat - s.index.toNat = room + 1 :=
  Nat.exists_eq_succ_of_ne_zero (Nat.sub_ne_zero_of_lt h)

theorem outcome_of_stops (h : Stops count s fault) : outcome count s = .error fault := by
  cases h with
  | unread hindex hread =>
      obtain ⟨room, hroom⟩ := room_of_lt hindex
      rw [outcome, hroom, readSlots_of_unread hread]
      rfl
  | @crosses constant d hindex hread hcross =>
      have hwide : constant.kind.isWide = true := by
        by_contra hnarrow
        rw [Constant.slots_of_narrow (Bool.eq_false_of_not_eq_true hnarrow)] at hcross
        exact Nat.not_lt.2 hindex hcross
      rw [Constant.slots_of_wide hwide] at hcross
      have hroom : count.toNat - s.index.toNat = 1 := by
        rw [UInt16.lt_iff_toNat_lt] at hindex
        omega
      rw [outcome, hroom, readSlots_of_crosses hread hwide]
      rfl

theorem outcome_of_step (h : Step count s s') : outcome count s = outcome count s' := by
  cases h with
  | @push constant d hindex hread hfits =>
      have hslots : constant.slots ≤ count.toNat - s.index.toNat := by omega
      rw [outcome, outcome, toNat_index_push hfits, Nat.sub_add_eq,
        readSlots_of_fits hread hslots]
      simp only [push, bind_assoc, pure_bind, List.append_assoc]

theorem outcome_of_reached (h : Reached count c s) : outcome count (start c) = outcome count s := by
  induction h with
  | refl => rfl
  | tail _ hstep ih => rw [ih, outcome_of_step hstep]

theorem exists_halted (hs : s.InBounds count) :
    ∃ s', Relation.ReflTransGen (Step count) s s' ∧
      (¬s'.index < count ∨ ∃ fault, Stops count s' fault) := by
  -- every entry takes a slot, so there is less room after it
  induction hroom : count.toNat - s.index.toNat using Nat.strong_induction_on generalizing s with
  | _ room ih =>
      by_cases hindex : s.index < count
      · cases hread : readConstant s.index s.cursor with
        | error fault => exact ⟨s, .refl, .inr ⟨fault, .unread hindex hread⟩⟩
        | ok read =>
            obtain ⟨constant, d⟩ := read
            by_cases hfits : s.index.toNat + constant.slots ≤ count.toNat
            · have hstep : Step count s (s.push constant d) := .push hindex hread hfits
              have hpos := slots_pos constant
              obtain ⟨s', hreach, hhalted⟩ := ih _ (by rw [toNat_index_push hfits]; omega)
                (hs.step hstep) rfl
              exact ⟨s', hreach.head hstep, hhalted⟩
            · exact ⟨s, .refl, .inr ⟨_, .crosses hindex hread (Nat.lt_of_not_le hfits)⟩⟩
      · exact ⟨s, .refl, .inl hindex⟩

theorem outcome_eq_ok_iff {slots : List (Option Constant)} {d : Cursor} :
    outcome count (start c) = .ok (slots, d) ↔
      ∃ s, Reached count c s ∧ ¬s.index < count ∧ s.slots = slots ∧ s.cursor = d := by
  constructor
  · intro h
    obtain ⟨s, hreach, hdone | ⟨fault, hstops⟩⟩ := exists_halted (inBounds_start count c)
    · rw [outcome_of_reached hreach, outcome_of_done hdone, Except.ok.injEq, Prod.mk.injEq] at h
      exact ⟨s, hreach, hdone, h⟩
    · rw [outcome_of_reached hreach, outcome_of_stops hstops] at h
      cases h
  · rintro ⟨s, hreach, hdone, rfl, rfl⟩
    rw [outcome_of_reached hreach, outcome_of_done hdone]

theorem outcome_eq_error_iff :
    outcome count (start c) = .error fault ↔ ∃ s, Reached count c s ∧ Stops count s fault := by
  constructor
  · intro h
    obtain ⟨s, hreach, hdone | ⟨other, hstops⟩⟩ := exists_halted (inBounds_start count c)
    · rw [outcome_of_reached hreach, outcome_of_done hdone] at h
      cases h
    · rw [outcome_of_reached hreach, outcome_of_stops hstops, Except.error.injEq] at h
      exact ⟨s, hreach, h ▸ hstops⟩
  · rintro ⟨s, hreach, hstops⟩
    rw [outcome_of_reached hreach, outcome_of_stops hstops]

end Filling

open Filling

section Run

variable {c d : Cursor} {count : UInt16} (hcount : word16 c = .ok (count, d))

include hcount

theorem readEntries_of_outcome {slots : List (Option Constant)} {e : Cursor}
    (h : outcome count (start d) = .ok (slots, e)) : readEntries c = .ok (⟨slots.toArray⟩, e) := by
  obtain ⟨⟨others, e'⟩, hothers, h⟩ := Checks.bind_eq_ok.1 h
  obtain ⟨rfl, rfl⟩ := Prod.mk.inj (Checks.pure_eq_ok.1 h)
  exact bind_eq_ok.2 ⟨count, d, hcount, bind_eq_ok.2 ⟨others, e', hothers, rfl⟩⟩

theorem read_of_outcome_eq_error {fault : Fault} (h : outcome count (start d) = .error fault) :
    Pool.read c = .error fault := by
  have hslots : readSlots (count.toNat - 1) 1 d = .error fault := Checks.map_eq_error.1 h
  simp only [Pool.read, bind, Reader.bind, hcount, hslots]

theorem read_eq_ok_iff_filling {pool : Pool} {e : Cursor} :
    Pool.read c = .ok (pool, e) ↔ ∃ s, Reached count d s ∧ ¬s.index < count ∧
      pool = ⟨s.slots.toArray⟩ ∧ e = s.cursor ∧ pool.validate = .ok () := by
  constructor
  · intro h
    cases hout : outcome count (start d) with
    | error fault =>
        rw [read_of_outcome_eq_error hcount hout] at h
        cases h
    | ok filled =>
        obtain ⟨slots, e'⟩ := filled
        obtain ⟨s, hreach, hdone, rfl, rfl⟩ := outcome_eq_ok_iff.1 hout
        rw [read_of_readEntries (readEntries_of_outcome hcount hout), Checks.then_eq_ok,
          Checks.succeeds_unit, Checks.pure_eq_ok, Prod.mk.injEq] at h
        obtain ⟨hvalid, rfl, rfl⟩ := h
        exact ⟨s, hreach, hdone, rfl, rfl, hvalid⟩
  · intro h
    obtain ⟨s, hreach, hdone, rfl, rfl, hvalid⟩ := h
    have hout := outcome_eq_ok_iff.2 ⟨s, hreach, hdone, rfl, rfl⟩
    rw [read_of_readEntries (readEntries_of_outcome hcount hout), hvalid]
    rfl

theorem read_eq_error_iff_filling {fault : Fault} :
    Pool.read c = .error fault ↔ ∃ s, Reached count d s ∧ (Stops count s fault ∨
      ¬s.index < count ∧ (⟨s.slots.toArray⟩ : Pool).validate = .error fault) := by
  constructor
  · intro h
    cases hout : outcome count (start d) with
    | error other =>
        rw [read_of_outcome_eq_error hcount hout, Except.error.injEq] at h
        obtain ⟨s, hreach, hstops⟩ := outcome_eq_error_iff.1 hout
        exact ⟨s, hreach, .inl (h ▸ hstops)⟩
    | ok filled =>
        obtain ⟨slots, e'⟩ := filled
        obtain ⟨s, hreach, hdone, rfl, rfl⟩ := outcome_eq_ok_iff.1 hout
        rw [read_of_readEntries (readEntries_of_outcome hcount hout), Checks.map_eq_error] at h
        exact ⟨s, hreach, .inr ⟨hdone, h⟩⟩
  · intro h
    obtain ⟨s, hreach, hstops | ⟨hdone, hvalid⟩⟩ := h
    · exact read_of_outcome_eq_error hcount (outcome_eq_error_iff.2 ⟨s, hreach, hstops⟩)
    · have hout := outcome_eq_ok_iff.2 ⟨s, hreach, hdone, rfl, rfl⟩
      rw [read_of_readEntries (readEntries_of_outcome hcount hout), hvalid]
      rfl

end Run

section Filled

variable {slots : List (Option Constant)}

theorem Filled.sum_slots (h : Filled slots) : (slots.reduceOption.map Constant.slots).sum = slots.length := by
  induction h with
  | nil => rfl
  | narrow hnarrow _ ih =>
      rw [List.reduceOption_cons_of_some, List.map_cons, List.sum_cons, ih,
        Constant.slots_of_narrow hnarrow, List.length_cons, Nat.add_comm]
  | wide hwide _ ih =>
      rw [List.reduceOption_cons_of_some, List.reduceOption_cons_of_none, List.map_cons, List.sum_cons,
        ih, Constant.slots_of_wide hwide, List.length_cons, List.length_cons, Nat.add_comm]

/-- Nothing stands right after a wide entry, and nowhere else. -/
theorem Filled.getElem?_eq_none_iff (h : Filled slots) {n : Nat} :
    slots[n]? = some none ↔
      ∃ m constant, n = m + 1 ∧ slots[m]? = some (some constant) ∧ constant.kind.isWide = true := by
  induction h generalizing n with
  | nil => simp
  | narrow hnarrow _ ih =>
      cases n with
      | zero => simp
      | succ n =>
          rw [List.getElem?_cons_succ, ih]
          constructor
          · intro h
            obtain ⟨m, constant, rfl, hget, hwide⟩ := h
            exact ⟨m + 1, constant, rfl, hget, hwide⟩
          · intro h
            obtain ⟨m, constant, hm, hget, hwide⟩ := h
            obtain rfl := Nat.succ.inj hm
            cases n with
            | zero =>
                obtain rfl := Option.some.inj (Option.some.inj hget)
                rw [hnarrow] at hwide
                cases hwide
            | succ m => exact ⟨m, constant, rfl, hget, hwide⟩
  | wide hwide _ ih =>
      rcases n with - | - | n
      · simp
      · simp [hwide]
      · rw [List.getElem?_cons_succ, List.getElem?_cons_succ, ih]
        constructor
        · intro h
          obtain ⟨m, constant, rfl, hget, hwide⟩ := h
          exact ⟨m + 2, constant, rfl, hget, hwide⟩
        · intro h
          obtain ⟨m, constant, hm, hget, hwide⟩ := h
          obtain rfl := Nat.succ.inj hm
          cases n with
          | zero => cases hget
          | succ m => exact ⟨m, constant, rfl, hget, hwide⟩

end Filled

def SecondSlot (pool : Pool) (index : UInt16) : Prop :=
  ∃ before constant, pool.get before = .ok constant ∧
    (constant.kind = .long ∨ constant.kind = .double) ∧ index.toNat = before.toNat + 1

/-- The entries can be looked up where they start, and only there. They stand one after the other,
each in its own slots, in the order in which `bytes` spells them. -/
structure LaidOut (pool : Pool) (bytes : Bytes) : Prop where
  get_eq_error_iff : ∀ index fault, pool.get index = .error fault ↔
    fault = .badIndex index ∧ (index = 0 ∨ pool.size ≤ index.toNat ∨ pool.SecondSlot index)
  mem_entries_iff : ∀ index constant, (index, constant) ∈ pool.entries ↔ pool.get index = .ok constant
  ascending : pool.entries.Pairwise fun a b => a.1 < b.1
  spelled : bytes ∈ concat (fun constant => (Layout.constant (free pool) constant).run)
    (pool.entries.map (·.2))
  fits : ∀ entry ∈ pool.entries, entry.1.toNat + entry.2.slots ≤ pool.size
  sum_slots : (pool.entries.map (·.2.slots)).sum = pool.size - 1

variable {pool : Pool}

theorem map_entries (pool : Pool) : pool.entries.map (·.2) = pool.slots.toList.reduceOption := by
  have hfst : (pool.slots.toList.zipIdx.map Prod.fst).reduceOption = pool.slots.toList.reduceOption := by
    rw [List.zipIdx_map_fst]
  rw [← hfst, entries, List.reduceOption, List.filterMap_map, List.map_filterMap]
  congr 1
  funext slot
  rw [Option.map_map]
  exact Option.map_id'

theorem get?_eq_some_iff_slots {slots : List (Option Constant)} {index : UInt16} {n : Nat}
    {constant : Constant} (hslots : pool.slots.toList = none :: slots) (hindex : index.toNat = n + 1) :
    pool.get? index = some constant ↔ slots[n]? = some (some constant) := by
  rw [get?, Option.join_eq_some_iff, ← Array.getElem?_toList, hslots, hindex, List.getElem?_cons_succ]

theorem get?_eq_none_iff_slots {slots : List (Option Constant)} {index : UInt16} {n : Nat}
    (hslots : pool.slots.toList = none :: slots) (hindex : index.toNat = n + 1) :
    pool.get? index = none ↔ slots.length ≤ n ∨ slots[n]? = some none := by
  rw [get?, Option.join_eq_none_iff, ← Array.getElem?_toList, hslots, hindex,
    List.getElem?_cons_succ, List.getElem?_eq_none_iff]

theorem exists_pred_of_get? {index : UInt16} {constant : Constant} {slots : List (Option Constant)}
    (hslots : pool.slots.toList = none :: slots) (hget : pool.get? index = some constant) :
    ∃ n, index.toNat = n + 1 := by
  apply Nat.exists_eq_succ_of_ne_zero
  intro hzero
  rw [get?, hzero, ← Array.getElem?_toList, hslots] at hget
  cases hget

theorem secondSlot_iff {slots : List (Option Constant)} {index : UInt16} {n : Nat}
    (hslots : pool.slots.toList = none :: slots) (hfilled : Filled slots)
    (hindex : index.toNat = n + 1) : pool.SecondSlot index ↔ slots[n]? = some none := by
  rw [hfilled.getElem?_eq_none_iff]
  constructor
  · intro hsecond
    obtain ⟨before, constant, hget, hkind, hnext⟩ := hsecond
    rw [get_eq_ok] at hget
    obtain ⟨m, hm⟩ := exists_pred_of_get? hslots hget
    refine ⟨m, constant, by omega, (get?_eq_some_iff_slots hslots hm).1 hget, ?_⟩
    exact ConstantKind.isWide_iff.2 hkind
  · intro hwide
    obtain ⟨m, constant, rfl, hget, hkind⟩ := hwide
    have hlt : m + 1 < 65536 := Nat.lt_of_le_of_lt (by omega) index.toNat_lt
    have hbefore : (m + 1).toUInt16.toNat = m + 1 := UInt16.toNat_ofNat_of_lt hlt
    refine ⟨(m + 1).toUInt16, constant, ?_, ConstantKind.isWide_iff.1 hkind, by omega⟩
    exact get_eq_ok.2 ((get?_eq_some_iff_slots hslots hbefore).2 hget)

namespace WellFormed

variable {index : UInt16} {constant : Constant}

theorem get?_eq_none_iff (h : pool.WellFormed) :
    pool.get? index = none ↔ index = 0 ∨ pool.size ≤ index.toNat ∨ pool.SecondSlot index := by
  obtain ⟨slots, hslots, hfilled⟩ := h.filled
  have hsize : pool.size = slots.length + 1 := congrArg List.length hslots
  by_cases hzero : index = 0
  · subst hzero
    refine iff_of_true ?_ (.inl rfl)
    rw [get?, ← Array.getElem?_toList, hslots]
    rfl
  · obtain ⟨n, hn⟩ := Nat.exists_eq_succ_of_ne_zero fun h => hzero (UInt16.toNat_inj.1 h)
    rw [get?_eq_none_iff_slots hslots hn, secondSlot_iff hslots hfilled hn, or_iff_right hzero]
    apply or_congr_left
    omega

theorem fits (h : pool.WellFormed) (hget : pool.get? index = some constant) :
    index.toNat + constant.slots ≤ pool.size := by
  obtain ⟨slots, hslots, hfilled⟩ := h.filled
  have hsize : pool.size = slots.length + 1 := congrArg List.length hslots
  obtain ⟨n, hn⟩ := exists_pred_of_get? hslots hget
  have hslot := (get?_eq_some_iff_slots hslots hn).1 hget
  cases hwide : constant.kind.isWide with
  | false =>
      have hlt := (List.getElem?_eq_some_iff.1 hslot).1
      rw [Constant.slots_of_narrow hwide]
      omega
  | true =>
      have hsecond := hfilled.getElem?_eq_none_iff.2 ⟨n, constant, rfl, hslot, hwide⟩
      have hlt := (List.getElem?_eq_some_iff.1 hsecond).1
      rw [Constant.slots_of_wide hwide]
      omega

theorem laidOut (h : pool.WellFormed) {bytes : Bytes}
    (hbytes : bytes ∈ concat (fun constant => (Layout.constant (free pool) constant).run)
      pool.slots.toList.reduceOption) : pool.LaidOut bytes := by
  have hsize := Nat.le_of_lt h.size_lt
  refine ⟨?_, ?_, pairwise_entries hsize, ?_, ?_, ?_⟩
  · intro index fault
    rw [get_eq_error, h.get?_eq_none_iff, and_comm]
  · intro index constant
    rw [mem_entries hsize, get_eq_ok]
  · rw [map_entries]
    exact hbytes
  · intro entry hentry
    exact h.fits ((mem_entries hsize).1 hentry)
  · obtain ⟨slots, hslots, hfilled⟩ := h.filled
    have hlen : pool.size = slots.length + 1 := congrArg List.length hslots
    have hmap : pool.entries.map (·.2.slots) = (pool.entries.map (·.2)).map Constant.slots := by
      rw [List.map_map]
      rfl
    rw [hmap, map_entries, hslots, List.reduceOption_cons_of_none, hfilled.sum_slots, hlen,
      Nat.add_sub_cancel]

end WellFormed

end Pool

namespace ClassFile

open Pool.Filling

def readHeader : Reader (UInt16 × UInt16) := do
  readMagic
  readVersion

theorem read_of_pool_eq_error {bytes : Bytes} {version : UInt16 × UInt16} {c : Cursor} {fault : Fault}
    (hheader : readHeader (.start bytes) = .ok (version, c)) (h : Pool.read c = .error fault) :
    read bytes = .error fault := by
  obtain ⟨⟨⟩, d, hmagic, hversion⟩ := Reader.bind_eq_ok.1 hheader
  have hclass : readClass (.start bytes) = .error fault := by
    simp only [readClass, bind, Reader.bind, hmagic, hversion, h]
  rw [read, hclass]

theorem laidOut_of_read {bytes : Bytes} {c : ClassFile} (h : read bytes = .ok c) :
    bigEndian ((bytes.drop 8).take 2) = c.pool.size ∧
      ∃ spelled, spelled <+: bytes.drop 10 ∧ c.pool.LaidOut spelled := by
  obtain ⟨hwell, hbytes⟩ := read_eq_ok_iff.1 h
  obtain ⟨p, hp, body, -, rfl⟩ := mem_layouts.1 hbytes
  obtain ⟨spelled, hspelled, rfl⟩ := Pool.mem_run_pool.1 hp
  have hpool := (wellFormed_iff.1 hwell).2.1
  have hheader : (number 4 0xCAFEBABE ++ (word c.minor ++ word c.major)).length = 8 := by
    simp only [word, List.length_append, length_number]
  generalize number 4 0xCAFEBABE ++ (word c.minor ++ word c.major) = header at hheader ⊢
  rw [List.append_assoc, List.append_assoc, ← List.drop_drop (i := 2) (j := 8), List.drop_left' hheader,
    List.take_left' (length_number 2 _), List.drop_left' (length_number 2 _)]
  have hlt : c.pool.size < 256 ^ 2 := hpool.size_lt
  exact ⟨bigEndian_number hlt, spelled, List.prefix_append _ _, hpool.laidOut hspelled⟩

/-- The declared count is the size of the pool, and the entries fill it in the order of the file,
without a gap. The 16-bit index of the loop that reads them is the number of slots so far and stays
within the count, whatever is read, and a wide entry that has only the last slot is refused. -/
theorem pool_slots_exact :
    (∀ bytes c, read bytes = .ok c →
      bigEndian ((bytes.drop 8).take 2) = c.pool.size ∧
        ∃ spelled, spelled <+: bytes.drop 10 ∧ c.pool.LaidOut spelled) ∧
      ∀ c count d, word16 c = .ok (count, d) →
        (∀ s, Reached count d s → s.InBounds count) ∧
        (∀ pool e, Pool.read c = .ok (pool, e) ↔ ∃ s, Reached count d s ∧ ¬s.index < count ∧
          pool = ⟨s.slots.toArray⟩ ∧ e = s.cursor ∧ pool.validate = .ok ()) ∧
        (∀ fault, Pool.read c = .error fault ↔ ∃ s, Reached count d s ∧ (Stops count s fault ∨
          ¬s.index < count ∧ (⟨s.slots.toArray⟩ : Pool).validate = .error fault)) ∧
        ∀ s constant e, Reached count d s → s.index.toNat + 1 = count.toNat →
          Pool.readConstant s.index s.cursor = .ok (constant, e) →
          constant.kind = .long ∨ constant.kind = .double →
          Pool.read c = .error (.badIndex s.index) ∧
            ∀ bytes version, readHeader (.start bytes) = .ok (version, c) →
              read bytes = .error (.badIndex s.index) := by
  refine ⟨fun bytes c => laidOut_of_read, fun c count d hcount => ⟨fun s => Reached.inBounds,
    fun pool e => Pool.read_eq_ok_iff_filling hcount, fun fault => Pool.read_eq_error_iff_filling hcount,
    fun s constant e hreach hlast hread hkind => ?_⟩⟩
  have hrefused : Pool.read c = .error (.badIndex s.index) := by
    rw [Pool.read_eq_error_iff_filling hcount]
    refine ⟨s, hreach, .inl (.crosses ?_ hread ?_)⟩
    · rw [UInt16.lt_iff_toNat_lt]
      omega
    · rw [Constant.slots_of_wide (ConstantKind.isWide_iff.2 hkind)]
      omega
  exact ⟨hrefused, fun bytes version hheader => read_of_pool_eq_error hheader hrefused⟩

def longInLastSlot : Bytes :=
  [0xCA, 0xFE, 0xBA, 0xBE, 0, 0, 0, 52, 0, 3, 1, 0, 1, 65, 5, 0, 0, 0, 0, 0, 0, 0, 7]

theorem pool_slots_exact_sample :
    (read sample.encode = .ok sample ∧
      bigEndian ((sample.encode.drop 8).take 2) = sample.pool.size ∧
        sample.pool.get 7 = .error (.badIndex 7)) ∧
      read longInLastSlot = .error (.badIndex 2) := by
  have hread := read_encode wellFormed_sample
  obtain ⟨hcount, spelled, -, hlaid⟩ := pool_slots_exact.1 _ _ hread
  have hsecond : sample.pool.SecondSlot 7 := ⟨6, .long 7, rfl, .inl rfl, rfl⟩
  refine ⟨⟨hread, hcount, (hlaid.get_eq_error_iff 7 _).2 ⟨rfl, .inr (.inr hsecond)⟩⟩, ?_⟩
  have hstart : word16 ⟨8, longInLastSlot.drop 8⟩ = .ok (3, ⟨10, longInLastSlot.drop 10⟩) := by decide
  have hfirst : Step 3 (start ⟨10, longInLastSlot.drop 10⟩)
      ((start ⟨10, longInLastSlot.drop 10⟩).push (.utf8 "A") ⟨14, longInLastSlot.drop 14⟩) :=
    .push (by decide) (by decide +kernel) (by decide)
  have hlong : Pool.readConstant 2 ⟨14, longInLastSlot.drop 14⟩ = .ok (.long 7, ⟨23, []⟩) := by
    decide +kernel
  have hrefused := (pool_slots_exact.2 _ _ _ hstart).2.2.2 _ _ _ (.single hfirst) rfl hlong (.inl rfl)
  exact hrefused.2 longInLastSlot (0, 52) (by decide +kernel)

end ClassFile

end ClassListing
