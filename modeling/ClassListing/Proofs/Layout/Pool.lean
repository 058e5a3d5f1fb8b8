import ClassListing.Pool.Reader
import ClassListing.Proofs.Layout
import ClassListing.Proofs.Text.ModifiedUtf8
import ClassListing.Proofs.WellFormed

namespace ClassListing

open Reader Layout

theorem ConstantKind.ofTag?_eq_some {tag : UInt8} {kind : ConstantKind} :
    ofTag? tag = some kind ↔ kind.tag = tag := by
  constructor
  · intro h
    simpa using List.find?_some h
  · rintro rfl
    cases kind with
    | member kind => cases kind <;> rfl
    | _ => rfl

theorem ConstantKind.tag_injective {a b : ConstantKind} (h : a.tag = b.tag) : a = b :=
  Option.some.inj ((ofTag?_eq_some.2 h).symm.trans (ofTag?_eq_some.2 rfl))

namespace Pool

variable {pool : Pool}

theorem head?_of_mem_constant {constant : Constant} {bytes : Bytes}
    (h : bytes ∈ (Layout.constant (free pool) constant).run) :
    bytes.head? = some constant.kind.tag := by
  cases constant with
  | utf8 text =>
      simp only [Layout.constant, mem_run_bind, mem_run_pure] at h
      obtain ⟨spelled, -, rfl⟩ := h
      rfl
  | member kind owner nameAndType =>
      cases kind <;> rw [mem_run_pure.1 h] <;> rfl
  | _ => rw [mem_run_pure.1 h]; rfl

theorem reads_of_kind {α : Type} {r : Reader Constant} {f : α → Constant} {L : α → Bytes}
    {kind : ConstantKind} (hr : r.Reads fun c => {t | ∃ a, f a = c ∧ t ∈ ({L a} : Set Bytes)})
    (hf : ∀ a, Layout.constant (free pool) (f a) = pure (kind.tag :: L a))
    (hk : ∀ c, c.kind = kind → ∃ a, f a = c) :
    r.Reads fun c => {t | kind.tag :: t ∈ (Layout.constant (free pool) c).run} := by
  refine hr.congr fun c t => ?_
  constructor
  · rintro ⟨a, rfl, rfl⟩
    have h : kind.tag :: L a ∈ (Layout.constant (free pool) (f a)).run := by
      rw [hf, mem_run_pure]
    exact h
  · intro h
    have htag : c.kind.tag = kind.tag := (Option.some.inj (head?_of_mem_constant h)).symm
    obtain ⟨a, rfl⟩ := hk c (ConstantKind.tag_injective htag)
    have h' : kind.tag :: t ∈ (Layout.constant (free pool) (f a)).run := h
    rw [hf, mem_run_pure] at h'
    exact ⟨a, rfl, (List.cons.inj h').2⟩

theorem reads_text (index : UInt16) :
    (do
      let length ← word16
      let bytes ← take length.toNat
      match ModifiedUtf8.decode bytes with
      | some text => return .utf8 text
      | none => fail (.malformedText index) : Reader Constant).Reads
      fun c => {t | ConstantKind.utf8.tag :: t ∈ (Layout.constant (free pool) c).run} := by
  have hinner (bytes : Bytes) :
      (match ModifiedUtf8.decode bytes with
        | some text => return .utf8 text
        | none => fail (.malformedText index) : Reader Constant).Reads
        fun c => {t | ∃ text, ModifiedUtf8.decode bytes = some text ∧ c = .utf8 text ∧ t = []} := by
    cases ModifiedUtf8.decode bytes with
    | none => exact (reads_fail _).congr fun c t => by simp
    | some text => exact (reads_pure _).congr fun c t => by simp [eq_comm]
  refine (reads_word16.bind fun length => (reads_take length.toNat).bind hinner).congr fun c t => ?_
  constructor
  · rintro ⟨length, _, rfl, _, ⟨bytes, _, ⟨rfl, hlen⟩, _, ⟨text, htext, rfl, rfl⟩, rfl⟩, rfl⟩
    refine mem_run_bind.2 ⟨_, mem_run_text.2 ⟨htext, ?_⟩, ?_⟩
    · rw [hlen]
      exact length.toNat_lt
    · rw [mem_run_pure, hlen, List.append_nil]
      rfl
  · intro h
    have htag : c.kind = .utf8 :=
      ConstantKind.tag_injective (Option.some.inj (head?_of_mem_constant h)).symm
    match c, htag with
    | .utf8 text, _ =>
      obtain ⟨bytes, ⟨htext, hlt⟩, h⟩ := mem_run_bind.1 h
      have hlen : bytes.length.toUInt16.toNat = bytes.length := UInt16.toNat_ofNat_of_lt hlt
      refine ⟨bytes.length.toUInt16, _, rfl, bytes,
        ⟨bytes, bytes, ⟨rfl, hlen.symm⟩, [], ⟨text, htext, rfl, rfl⟩, (List.append_nil _).symm⟩, ?_⟩
      rw [hlen]
      exact (List.cons.inj (mem_run_pure.1 h)).2

theorem reads_readConstant (pool : Pool) (index : UInt16) :
    (readConstant index).Reads fun c => (Layout.constant (free pool) c).run := by
  refine (reads_byte.bind (M := fun tag c => {t | tag :: t ∈ (Layout.constant (free pool) c).run})
    fun tag => ?_).congr fun c bytes => ?_
  · cases htag : ConstantKind.ofTag? tag with
    | none =>
        refine (reads_fail _).congr fun c t => ⟨False.elim, fun h => ?_⟩
        have hhead := Option.some.inj (head?_of_mem_constant h)
        rw [ConstantKind.ofTag?_eq_some.2 hhead.symm] at htag
        cases htag
    | some kind =>
        obtain rfl := ConstantKind.ofTag?_eq_some.1 htag
        cases kind with
        | utf8 => exact reads_text index
        | integer =>
            exact reads_of_kind (reads_word32.map _) (fun _ => rfl)
              fun | .integer value, _ => ⟨value.toUInt32, rfl⟩
        | float =>
            exact reads_of_kind (reads_word32.map _) (fun _ => rfl) fun | .float bits, _ => ⟨bits, rfl⟩
        | long =>
            exact reads_of_kind (reads_word64.map _) (fun _ => rfl)
              fun | .long value, _ => ⟨value.toUInt64, rfl⟩
        | double =>
            exact reads_of_kind (reads_word64.map _) (fun _ => rfl)
              fun | .double bits, _ => ⟨bits, rfl⟩
        | classRef =>
            exact reads_of_kind (reads_word16.map _) (fun _ => rfl)
              fun | .classRef name, _ => ⟨name, rfl⟩
        | string =>
            exact reads_of_kind (reads_word16.map _) (fun _ => rfl)
              fun | .string text, _ => ⟨text, rfl⟩
        | member kind =>
            refine reads_of_kind (reads_word16.map₂ reads_word16 _) ?_
              fun | .member _ owner signature, h => ⟨(owner, signature), by cases h; rfl⟩
            cases kind <;> exact fun _ => rfl
        | nameAndType =>
            exact reads_of_kind (reads_word16.map₂ reads_word16 _) (fun _ => rfl)
              fun | .nameAndType name descriptor, _ => ⟨(name, descriptor), rfl⟩
        | methodHandle =>
            exact reads_of_kind (reads_byte.map₂ reads_word16 _) (fun _ => rfl)
              fun | .methodHandle code target, _ => ⟨(code, target), rfl⟩
        | methodType =>
            exact reads_of_kind (reads_word16.map _) (fun _ => rfl)
              fun | .methodType descriptor, _ => ⟨descriptor, rfl⟩
        | dynamic =>
            exact reads_of_kind (reads_word16.map₂ reads_word16 _) (fun _ => rfl)
              fun | .dynamic bootstrap signature, _ => ⟨(bootstrap, signature), rfl⟩
        | invokeDynamic =>
            exact reads_of_kind (reads_word16.map₂ reads_word16 _) (fun _ => rfl)
              fun | .invokeDynamic bootstrap signature, _ => ⟨(bootstrap, signature), rfl⟩
        | module =>
            exact reads_of_kind (reads_word16.map _) (fun _ => rfl)
              fun | .module name, _ => ⟨name, rfl⟩
        | package =>
            exact reads_of_kind (reads_word16.map _) (fun _ => rfl)
              fun | .package name, _ => ⟨name, rfl⟩
  · constructor
    · rintro ⟨tag, _, rfl, t, ht, rfl⟩
      exact ht
    · intro h
      have hhead := head?_of_mem_constant h
      obtain ⟨tag, t, rfl⟩ := List.exists_cons_of_ne_nil (l := bytes) fun hnil => by simp [hnil] at hhead
      exact ⟨tag, _, rfl, t, h, rfl⟩

theorem constant_free (p q : Pool) : Layout.constant (free p) = Layout.constant (free q) := by
  funext c
  cases c <;> rfl

def slotLayouts (pool : Pool) (room : Nat) (slots : List (Option Constant)) : Set Bytes :=
  {bytes | slots.length = room ∧ Filled slots ∧
    bytes ∈ concat (fun c => (Layout.constant (free pool) c).run) slots.reduceOption}

def slotsAfter (pool : Pool) (room : Nat) (c : Constant) (slots : List (Option Constant)) :
    Set Bytes :=
  {bytes | ∃ others, slots = some c :: others ∧ slots.length = room ∧ Filled slots ∧
    bytes ∈ concat (fun c => (Layout.constant (free pool) c).run) others.reduceOption}

theorem reads_slotsAfter_narrow {r : Reader (List (Option Constant))} {room : Nat} {c : Constant}
    (hr : r.Reads (slotLayouts pool room)) (hc : c.kind.isWide = false) :
    (do return some c :: (← r) : Reader _).Reads (slotsAfter pool (room + 1) c) := by
  refine (hr.map (some c :: ·)).congr fun slots bytes => ?_
  constructor
  · rintro ⟨others, rfl, hlen, hfilled, hbytes⟩
    exact ⟨others, rfl, congrArg (· + 1) hlen, .narrow hc hfilled, hbytes⟩
  · rintro ⟨others, rfl, hlen, hfilled, hbytes⟩
    cases hfilled with
    | narrow _ hs => exact ⟨others, rfl, Nat.succ.inj hlen, hs, hbytes⟩
    | wide h _ => rw [hc] at h; cases h

theorem reads_slotsAfter_wide {r : Reader (List (Option Constant))} {room : Nat} {c : Constant}
    (hr : r.Reads (slotLayouts pool room)) (hc : c.kind.isWide = true) :
    (do return some c :: none :: (← r) : Reader _).Reads (slotsAfter pool (room + 2) c) := by
  refine (hr.map (some c :: none :: ·)).congr fun slots bytes => ?_
  constructor
  · rintro ⟨others, rfl, hlen, hfilled, hbytes⟩
    exact ⟨none :: others, rfl, congrArg (· + 2) hlen, .wide hc hfilled, by
      rw [List.reduceOption_cons_of_none]
      exact hbytes⟩
  · rintro ⟨others, rfl, hlen, hfilled, hbytes⟩
    cases hfilled with
    | narrow h _ => rw [hc] at h; cases h
    | wide _ hs =>
        rw [List.reduceOption_cons_of_none] at hbytes
        exact ⟨_, rfl, Nat.succ.inj (Nat.succ.inj hlen), hs, hbytes⟩

theorem slotsAfter_one_of_wide {c : Constant} {slots : List (Option Constant)}
    (hc : c.kind.isWide = true) : slotsAfter pool 1 c slots = ∅ := by
  rw [Set.eq_empty_iff_forall_notMem]
  rintro bytes ⟨others, rfl, hlen, hfilled, -⟩
  cases hfilled with
  | narrow h _ => rw [hc] at h; cases h
  | wide _ _ => simp at hlen

theorem reads_readSlots (pool : Pool) (room index : Nat) :
    (readSlots room index).Reads (slotLayouts pool room) := by
  -- a wide entry takes two slots, and what follows it has two fewer
  induction room using Nat.strong_induction_on generalizing index with
  | _ room ih =>
      cases room with
      | zero =>
          refine (reads_pure []).congr fun slots bytes => ?_
          constructor
          · rintro ⟨rfl, rfl⟩
            exact ⟨rfl, .nil, rfl⟩
          · rintro ⟨hlen, -, hbytes⟩
            obtain rfl := List.eq_nil_of_length_eq_zero hlen
            exact ⟨rfl, hbytes⟩
      | succ room =>
          rw [readSlots]
          refine (Reads.bind (reads_readConstant pool _) fun c =>
            (?_ : Reader.Reads _ (slotsAfter pool (room + 1) c))).congr fun slots bytes => ?_
          · cases hc : c.kind.isWide with
            | false => exact reads_slotsAfter_narrow (ih room (by omega) _) hc
            | true =>
                cases room with
                | zero =>
                    refine (reads_fail _).congr fun slots bytes => ?_
                    rw [slotsAfter_one_of_wide hc]
                | succ room => exact reads_slotsAfter_wide (ih room (by omega) _) hc
          · constructor
            · rintro ⟨c, s, hs, t, ⟨others, rfl, hlen, hfilled, ht⟩, rfl⟩
              refine ⟨hlen, hfilled, ?_⟩
              rw [List.reduceOption_cons_of_some]
              exact ⟨s, hs, t, ht, rfl⟩
            · rintro ⟨hlen, hfilled, hbytes⟩
              obtain ⟨c, others, rfl⟩ : ∃ c others, slots = some c :: others := by
                cases hfilled with
                | nil => simp at hlen
                | narrow => exact ⟨_, _, rfl⟩
                | wide => exact ⟨_, _, rfl⟩
              rw [List.reduceOption_cons_of_some] at hbytes
              obtain ⟨s, hs, t, ht, rfl⟩ := hbytes
              exact ⟨c, s, hs, t, ⟨others, rfl, hlen, hfilled, ht⟩, rfl⟩

theorem some_mem_slots {index : UInt16} {c : Constant} (h : pool.get? index = some c) :
    some c ∈ pool.slots.toList := by
  rw [get?, Option.join_eq_some_iff] at h
  exact Array.mem_toList_iff.2 (Array.mem_of_getElem? h)

theorem texts_of_mem_concat {slots : List (Option Constant)} {bytes : Bytes} {text : String}
    (h : bytes ∈ concat (fun c => (Layout.constant (free pool) c).run) slots.reduceOption)
    (htext : some (.utf8 text) ∈ slots) : (ModifiedUtf8.encode text).length < 65536 := by
  obtain ⟨s, hs⟩ := nonempty_of_mem_concat h (List.reduceOption_mem_iff.2 htext)
  obtain ⟨spelled, ⟨hspelled, hlt⟩, -⟩ := mem_run_bind.1 hs
  exact Nat.lt_of_le_of_lt (ModifiedUtf8.length_encode_le hspelled) hlt

/-- A count of 0 stands for a count of 1, that is, for a pool without entries. -/
def layouts (p : Pool) : Set Bytes :=
  {bytes | bytes ∈ (Layout.pool (free p) p).run ∨ p.size = 1 ∧ bytes = number 2 0}

theorem mem_run_pool {bytes : Bytes} :
    bytes ∈ (Layout.pool (free pool) pool).run ↔
      ∃ t ∈ concat (fun c => (Layout.constant (free pool) c).run) pool.slots.toList.reduceOption,
        bytes = number 2 pool.size ++ t := by
  simp only [Layout.pool, mem_run_bind, mem_run_pure, mem_run_sequence]

theorem wellFormed_of_slots {slots : List (Option Constant)} {bytes : Bytes}
    (hfilled : Filled slots) (hlen : slots.length < 65535)
    (hbytes : bytes ∈ concat (fun c => (Layout.constant (free pool) c).run) slots.reduceOption)
    (hvalid : (⟨(none :: slots).toArray⟩ : Pool).validate = .ok ()) :
    (⟨(none :: slots).toArray⟩ : Pool).WellFormed where
  filled := ⟨slots, rfl, hfilled⟩
  size_lt := by simp only [size, List.size_toArray, List.length_cons]; omega
  texts index text hget := by
    have hmem := some_mem_slots hget
    rw [List.toList_toArray, List.mem_cons] at hmem
    exact texts_of_mem_concat hbytes (hmem.resolve_left (by simp))
  valid := by
    refine (validate_eq_ok ?_).1 hvalid
    simp only [size, List.size_toArray, List.length_cons]
    omega

theorem reads_read : Pool.read.Reads fun p => {bytes | p.WellFormed ∧ bytes ∈ p.layouts} := by
  refine (reads_word16.bind fun count => (reads_readSlots ⟨#[]⟩ _ 1).bind fun slots =>
    (reads_check _).bind fun _ => reads_pure _).congr fun p bytes => ?_
  constructor
  · rintro ⟨count, _, rfl, _, ⟨slots, t, ⟨hlen, hfilled, ht⟩, _, ⟨⟨⟩, _, ⟨hvalid, rfl⟩, _, ⟨rfl, rfl⟩, rfl⟩,
      rfl⟩, rfl⟩
    have hcount := count.toNat_lt
    refine ⟨wellFormed_of_slots hfilled (by omega) ht hvalid, ?_⟩
    rw [List.append_nil, List.append_nil]
    rcases Nat.eq_zero_or_pos count.toNat with hzero | hpos
    · obtain rfl : slots = [] := List.eq_nil_of_length_eq_zero (by omega)
      obtain rfl : t = [] := ht
      exact .inr ⟨rfl, by rw [hzero, List.append_nil]⟩
    · refine .inl (mem_run_pool.2 ⟨t, ?_, ?_⟩)
      · rw [constant_free _ ⟨#[]⟩, List.toList_toArray, List.reduceOption_cons_of_none]
        exact ht
      · simp only [size, List.size_toArray, List.length_cons, hlen]
        rw [Nat.sub_add_cancel hpos]
  · rintro ⟨hp, hbytes⟩
    obtain ⟨slots, hslots, hfilled⟩ := hp.filled
    obtain rfl : p = ⟨(none :: slots).toArray⟩ := by
      cases p
      rw [← hslots, Array.toArray_toList]
    have hsize : (⟨(none :: slots).toArray⟩ : Pool).size = slots.length + 1 := rfl
    have hlt := hp.size_lt
    have hvalid := (validate_eq_ok (Nat.le_of_lt hlt)).2 hp.valid
    rcases hbytes with hbytes | ⟨hone, rfl⟩
    · obtain ⟨t, ht, rfl⟩ := mem_run_pool.1 hbytes
      rw [constant_free _ ⟨#[]⟩, List.toList_toArray, List.reduceOption_cons_of_none] at ht
      have hcount : (slots.length + 1).toUInt16.toNat = slots.length + 1 :=
        UInt16.toNat_ofNat_of_lt (by rw [hsize] at hlt; exact hlt)
      refine ⟨(slots.length + 1).toUInt16, _, rfl, t, ⟨slots, t, ⟨?_, hfilled, ht⟩, [],
        ⟨(), [], ⟨hvalid, rfl⟩, [], ⟨rfl, rfl⟩, rfl⟩, (List.append_nil _).symm⟩, ?_⟩
      · rw [hcount, Nat.add_sub_cancel]
      · rw [hcount, hsize]
    · obtain rfl : slots = [] := List.eq_nil_of_length_eq_zero (by omega)
      exact ⟨0, _, rfl, [], ⟨[], [], ⟨rfl, hfilled, rfl⟩, [],
        ⟨(), [], ⟨hvalid, rfl⟩, [], ⟨rfl, rfl⟩, rfl⟩, rfl⟩, rfl⟩

theorem valid_of_read {pool : Pool} {c c' : Cursor} (h : Pool.read c = .ok (pool, c')) :
    pool.Valid := by
  obtain ⟨_, ⟨hpool, -⟩, -⟩ := (reads_read c pool c').1 h
  exact hpool.valid

end Pool

end ClassListing
