import ClassListing.Proofs.Layout.Pool

namespace ClassListing

namespace Utf16

def isPairAt (units : List Nat) (i : Nat) : Bool :=
  units[i]?.any (fun u => 0xD800 ≤ u && u ≤ 0xDBFF) &&
    units[i + 1]?.any fun v => 0xDC00 ≤ v && v ≤ 0xDFFF

/-- The number of the character that starts at a place. The second unit of a pair starts none, and
any other surrogate without a partner is replaced. -/
def scalarAt? (units : List Nat) (i : Nat) : Option Nat :=
  if isPairAt units i then
    some (0x10000 + (units.getD i 0 - 0xD800) * 0x400 + (units.getD (i + 1) 0 - 0xDC00))
  else if 0 < i && isPairAt units (i - 1) then none
  else units[i]?.map fun u => if 0xD800 ≤ u && u ≤ 0xDFFF then 0xFFFD else u

def scalars (units : List Nat) : List Nat := (List.range units.length).filterMap (scalarAt? units)

theorem isPairAt_cons_succ (u : Nat) (units : List Nat) (i : Nat) :
    isPairAt (u :: units) (i + 1) = isPairAt units i := by
  simp only [isPairAt, List.getElem?_cons_succ]

theorem scalarAt?_cons_succ_succ (u : Nat) (units : List Nat) (i : Nat) :
    scalarAt? (u :: units) (i + 2) = scalarAt? units (i + 1) := by
  simp only [scalarAt?, isPairAt_cons_succ, List.getElem?_cons_succ, List.getD_cons_succ,
    Nat.add_sub_cancel, Nat.succ_pos, show i + 2 - 1 = i + 1 from rfl]

theorem scalarAt?_cons_succ {u : Nat} {units : List Nat} (h : isPairAt (u :: units) 0 = false)
    (i : Nat) : scalarAt? (u :: units) (i + 1) = scalarAt? units i := by
  cases i with
  | zero => simp [scalarAt?, isPairAt_cons_succ, h]
  | succ i => exact scalarAt?_cons_succ_succ u units i

theorem scalars_cons {u : Nat} {units : List Nat} (h : isPairAt (u :: units) 0 = false) :
    scalars (u :: units) = (if 0xD800 ≤ u && u ≤ 0xDFFF then 0xFFFD else u) :: scalars units := by
  have hfirst : scalarAt? (u :: units) 0 =
      some (if 0xD800 ≤ u && u ≤ 0xDFFF then 0xFFFD else u) := by
    simp [scalarAt?, h]
  have hothers : scalarAt? (u :: units) ∘ Nat.succ = scalarAt? units :=
    funext fun i => scalarAt?_cons_succ h i
  rw [scalars, List.length_cons, List.range_succ_eq_map, List.filterMap_cons_some hfirst,
    List.filterMap_map, hothers, scalars]

theorem scalars_pair {u v : Nat} (hu : 0xD800 ≤ u ∧ u ≤ 0xDBFF) (hv : 0xDC00 ≤ v ∧ v ≤ 0xDFFF)
    (units : List Nat) :
    scalars (u :: v :: units) =
      (0x10000 + (u - 0xD800) * 0x400 + (v - 0xDC00)) :: scalars units := by
  have hpair : isPairAt (u :: v :: units) 0 = true := by simp [isPairAt, hu, hv]
  have hnext : isPairAt (v :: units) 0 = false := by
    rw [isPairAt, Bool.and_eq_false_iff]
    left
    simp
    omega
  have hfirst : scalarAt? (u :: v :: units) 0 =
      some (0x10000 + (u - 0xD800) * 0x400 + (v - 0xDC00)) := by
    simp [scalarAt?, hpair]
  have hsecond : (scalarAt? (u :: v :: units) ∘ Nat.succ) 0 = none := by
    simp [scalarAt?, isPairAt_cons_succ, hpair, hnext]
  have hothers : (scalarAt? (u :: v :: units) ∘ Nat.succ) ∘ Nat.succ = scalarAt? units := by
    funext i
    exact (scalarAt?_cons_succ_succ u (v :: units) i).trans (scalarAt?_cons_succ hnext i)
  rw [scalars, List.length_cons, List.length_cons, List.range_succ_eq_map,
    List.filterMap_cons_some hfirst, List.filterMap_map, List.range_succ_eq_map,
    List.filterMap_cons_none hsecond, List.filterMap_map, hothers, scalars]

end Utf16

namespace ModifiedUtf8

open Utf16

theorem toNat_charOfUnit_eq (u : UInt16) :
    (charOfUnit u).toNat = if 0xD800 ≤ u.toNat && u.toNat ≤ 0xDFFF then 0xFFFD else u.toNat := by
  have hiff : (0xD800 ≤ u.toNat && u.toNat ≤ 0xDFFF) = isSurrogate u := by
    rw [Bool.eq_iff_iff, isSurrogate_iff, Bool.and_eq_true, decide_eq_true_eq, decide_eq_true_eq]
  rw [hiff]
  by_cases hs : isSurrogate u = true
  · rw [charOfUnit, if_pos hs, if_pos hs]
    rfl
  · rw [if_neg hs, toNat_charOfUnit (Bool.eq_false_iff.2 hs)]

theorem isPairAt_map_toNat (u v : UInt16) (units : List UInt16) :
    isPairAt ((u :: v :: units).map UInt16.toNat) 0 = (isHighSurrogate u && isLowSurrogate v) := by
  rw [Bool.eq_iff_iff, Bool.and_eq_true, isHighSurrogate_iff, isLowSurrogate_iff]
  simp [isPairAt]

/-- Reading from left to right gives at each place what the units around it say. -/
theorem map_toNat_chars (units : List UInt16) :
    (chars units).map Char.toNat = scalars (units.map UInt16.toNat) := by
  fun_induction chars units with
  | case1 => rfl
  | case2 u =>
      have hpair : isPairAt [u.toNat] 0 = false := by simp [isPairAt]
      rw [List.map_cons, List.map_nil, List.map_cons, List.map_nil, scalars_cons hpair,
        toNat_charOfUnit_eq]
      rfl
  | case3 u v rest h ih =>
      rw [Bool.and_eq_true] at h
      have hu := (isHighSurrogate_iff u).1 h.1
      have hv := (isLowSurrogate_iff v).1 h.2
      rw [List.map_cons, List.map_cons, List.map_cons, scalars_pair hu hv, ih,
        toNat_charOfPair h.1 h.2]
  | case4 u v rest h ih =>
      have hpair := isPairAt_map_toNat u v rest
      rw [Bool.eq_false_iff.2 h, List.map_cons] at hpair
      rw [List.map_cons, List.map_cons, scalars_cons hpair, toNat_charOfUnit_eq, ih]

/-- The bytes of one unit. A group may be longer than its unit needs. -/
inductive Group where
  | one (b : UInt8) (hb : 0x01 ≤ b.toNat ∧ b.toNat ≤ 0x7F)
  | two (b c : UInt8) (hb : 0xC0 ≤ b.toNat ∧ b.toNat ≤ 0xDF) (hc : 0x80 ≤ c.toNat ∧ c.toNat ≤ 0xBF)
  | three (b c d : UInt8) (hb : 0xE0 ≤ b.toNat ∧ b.toNat ≤ 0xEF)
      (hc : 0x80 ≤ c.toNat ∧ c.toNat ≤ 0xBF) (hd : 0x80 ≤ d.toNat ∧ d.toNat ≤ 0xBF)

namespace Group

def bytes : Group → List UInt8
  | one b _ => [b]
  | two b c _ _ => [b, c]
  | three b c d _ _ _ => [b, c, d]

/-- The number in a group. After the first byte, each byte has six bits of it. -/
def payload : Group → Nat
  | one b _ => b.toNat
  | two b c _ _ => 2 ^ 6 * (b.toNat % 2 ^ 5) + c.toNat % 2 ^ 6
  | three b c d _ _ _ => 2 ^ 12 * (b.toNat % 2 ^ 4) + 2 ^ 6 * (c.toNat % 2 ^ 6) + d.toNat % 2 ^ 6

theorem payload_lt (g : Group) : g.payload < 65536 := by
  cases g with
  | one b hb =>
      rw [payload]
      omega
  | two b c hb hc =>
      rw [payload]
      omega
  | three b c d hb hc hd =>
      rw [payload]
      omega

def unit (g : Group) : UInt16 := g.payload.toUInt16

theorem toNat_unit (g : Group) : g.unit.toNat = g.payload := UInt16.toNat_ofNat_of_lt g.payload_lt

theorem units?_bytes_append (g : Group) (rest : List UInt8) :
    units? (g.bytes ++ rest) = (units? rest).map (g.unit :: ·) := by
  have hunit := g.toNat_unit
  cases g with
  | one b hb =>
      have hvalue : b.toUInt16 = (one b hb).unit := by
        apply UInt16.toNat_inj.1
        rw [hunit, UInt8.toNat_toUInt16, payload]
      rw [bytes, List.singleton_append, units?_single ((isSingle_iff b).2 hb), hvalue]
  | two b c hb hc =>
      have hvalue : unitOfTwo b c = (two b c hb hc).unit := by
        apply UInt16.toNat_inj.1
        rw [hunit, toNat_unitOfTwo, payload]
        omega
      rw [bytes, List.cons_append, List.singleton_append, units?_two ((isLeadOfTwo_iff b).2 hb)
        ((isContinuation_iff c).2 hc), hvalue]
  | three b c d hb hc hd =>
      have hvalue : unitOfThree b c d = (three b c d hb hc hd).unit := by
        apply UInt16.toNat_inj.1
        rw [hunit, toNat_unitOfThree, payload]
        omega
      rw [bytes, List.cons_append, List.cons_append, List.singleton_append,
        units?_three ((isLeadOfThree_iff b).2 hb) ((isContinuation_iff c).2 hc)
        ((isContinuation_iff d).2 hd), hvalue]

theorem units?_flatMap_bytes (groups : List Group) :
    units? (groups.flatMap bytes) = some (groups.map unit) := by
  induction groups with
  | nil => rfl
  | cons g groups ih =>
      rw [List.flatMap_cons, units?_bytes_append, ih, Option.map_some, List.map_cons]

theorem exists_of_units? {input : List UInt8} {units : List UInt16} (h : units? input = some units) :
    ∃ groups : List Group, input = groups.flatMap bytes := by
  fun_induction units? input generalizing units with
  | case1 => exact ⟨[], rfl⟩
  | case2 b rest hb ih =>
      obtain ⟨others, hothers, -⟩ := Option.map_eq_some_iff.1 h
      obtain ⟨groups, rfl⟩ := ih hothers
      exact ⟨one b ((isSingle_iff b).1 hb) :: groups, rfl⟩
  | case3 b hs hb c rest hc ih =>
      obtain ⟨others, hothers, -⟩ := Option.map_eq_some_iff.1 h
      obtain ⟨groups, rfl⟩ := ih hothers
      exact ⟨two b c ((isLeadOfTwo_iff b).1 hb) ((isContinuation_iff c).1 hc) :: groups, rfl⟩
  | case6 b hs htwo hb c d rest hcd ih =>
      obtain ⟨others, hothers, -⟩ := Option.map_eq_some_iff.1 h
      obtain ⟨groups, rfl⟩ := ih hothers
      obtain ⟨hc, hd⟩ := Bool.and_eq_true_iff.1 hcd
      exact ⟨three b c d ((isLeadOfThree_iff b).1 hb) ((isContinuation_iff c).1 hc)
        ((isContinuation_iff d).1 hd) :: groups, rfl⟩
  | case4 | case5 | case7 | case8 | case9 => simp at h

def followers (first : UInt8) : Nat :=
  if first.toNat ≤ 0x7F then 0 else if first.toNat ≤ 0xDF then 1 else 2

theorem exists_first (g : Group) :
    ∃ first rest, g.bytes = first :: rest ∧ rest.length = followers first := by
  cases g with
  | one b hb =>
      refine ⟨b, [], rfl, ?_⟩
      rw [followers, if_pos hb.2, List.length_nil]
  | two b c hb hc =>
      refine ⟨b, [c], rfl, ?_⟩
      rw [followers, if_neg (by omega), if_pos hb.2, List.length_singleton]
  | three b c d hb hc hd =>
      refine ⟨b, [c, d], rfl, ?_⟩
      rw [followers, if_neg (by omega), if_neg (by omega), List.length_cons, List.length_singleton]

theorem bytes_injective {g h : Group} (heq : g.bytes = h.bytes) : g = h := by
  cases g with
  | one b _ => cases h <;> simp_all [bytes]
  | two b c _ _ => cases h <;> simp_all [bytes]
  | three b c d _ _ _ => cases h <;> simp_all [bytes]

/-- The first byte says where a group ends, so there is no other way to cut. -/
theorem bytes_append_inj {g h : Group} {s t : List UInt8} (heq : g.bytes ++ s = h.bytes ++ t) :
    g = h ∧ s = t := by
  obtain ⟨b, bs, hg, hbs⟩ := g.exists_first
  obtain ⟨c, cs, hh, hcs⟩ := h.exists_first
  have hfirst : b = c := by
    rw [hg, hh, List.cons_append, List.cons_append] at heq
    exact (List.cons.inj heq).1
  have hlength : g.bytes.length = h.bytes.length := by
    rw [hg, hh, List.length_cons, List.length_cons, hbs, hcs, hfirst]
  obtain ⟨hbytes, hrest⟩ := List.append_inj heq hlength
  exact ⟨bytes_injective hbytes, hrest⟩

theorem flatMap_bytes_injective {groups others : List Group}
    (h : groups.flatMap bytes = others.flatMap bytes) : groups = others := by
  induction groups generalizing others with
  | nil =>
      cases others with
      | nil => rfl
      | cons g others =>
          obtain ⟨b, bs, hg, -⟩ := g.exists_first
          simp [hg] at h
  | cons g groups ih =>
      cases others with
      | nil =>
          obtain ⟨b, bs, hg, -⟩ := g.exists_first
          simp [hg] at h
      | cons g' others =>
          obtain ⟨rfl, hrest⟩ := bytes_append_inj h
          rw [ih hrest]

end Group

theorem isSome_decode_iff {bytes : List UInt8} :
    (decode bytes).isSome = true ↔ ∃ groups : List Group, bytes = groups.flatMap Group.bytes := by
  rw [decode_eq_decodeGroups, decodeGroups, Option.isSome_map, Option.isSome_iff_exists]
  constructor
  · rintro ⟨units, hunits⟩
    exact Group.exists_of_units? hunits
  · rintro ⟨groups, rfl⟩
    exact ⟨_, Group.units?_flatMap_bytes groups⟩

theorem decode_eq_some_iff {bytes : List UInt8} {text : String} :
    decode bytes = some text ↔
      ∃ groups : List Group, bytes = groups.flatMap Group.bytes ∧
        text.toList.map Char.toNat = scalars (groups.map Group.payload) := by
  have hscalars (groups : List Group) :
      (chars (groups.map Group.unit)).map Char.toNat = scalars (groups.map Group.payload) := by
    rw [map_toNat_chars, List.map_map]
    exact congrArg scalars (List.map_congr_left fun g _ => g.toNat_unit)
  rw [decode_eq_decodeGroups, decodeGroups, Option.map_eq_some_iff]
  constructor
  · rintro ⟨units, hunits, rfl⟩
    obtain ⟨groups, rfl⟩ := Group.exists_of_units? hunits
    rw [Group.units?_flatMap_bytes] at hunits
    refine ⟨groups, rfl, ?_⟩
    rw [← Option.some.inj hunits, String.toList_ofList, hscalars]
  · rintro ⟨groups, rfl, htext⟩
    refine ⟨groups.map Group.unit, Group.units?_flatMap_bytes groups, ?_⟩
    rw [← hscalars] at htext
    have hinj : Function.Injective Char.toNat := fun _ _ => Char.toNat_inj.1
    rw [← List.map_injective_iff.2 hinj htext, String.ofList_toList]

/-- The strings of groups are accepted and no others, each is cut in one way, and where every byte
is a group of its own, plain UTF-8 gives what the groups give. -/
theorem decode_iff_groups (bytes : List UInt8) :
    ((decode bytes).isSome = true ↔ ∃ groups : List Group, bytes = groups.flatMap Group.bytes) ∧
      (∀ text, decode bytes = some text ↔
        ∃ groups : List Group, bytes = groups.flatMap Group.bytes ∧
          text.toList.map Char.toNat = scalars (groups.map Group.payload)) ∧
      (∀ groups others : List Group, bytes = groups.flatMap Group.bytes →
        bytes = others.flatMap Group.bytes → groups = others) ∧
      ((∀ b ∈ bytes, 0x01 ≤ b.toNat ∧ b.toNat ≤ 0x7F) →
        decode bytes = String.fromUTF8? bytes.toByteArray ∧
          String.fromUTF8? bytes.toByteArray = decodeGroups bytes) := by
  refine ⟨isSome_decode_iff, fun text => decode_eq_some_iff, fun groups others h h' => ?_, fun h => ?_⟩
  · exact Group.flatMap_bytes_injective (h.symm.trans h')
  · have hearly := decodeGroups_of_single fun b hb => (isSingle_iff b).2 (h b hb)
    exact ⟨(decode_eq_decodeGroups bytes).trans hearly.symm, hearly⟩

theorem decode_iff_groups_sample :
    (∃ groups : List Group,
      [0x41, 0xC0, 0x80, 0xED, 0xA0, 0xBD, 0xED, 0xB8, 0x80, 0xED, 0xA0, 0x80] =
          groups.flatMap Group.bytes ∧
        [0x41, 0, 0x1F600, 0xFFFD] = scalars (groups.map Group.payload)) ∧
      (∀ others : List Group, [0x48, 0x69] = others.flatMap Group.bytes →
        others = [.one 0x48 (by decide), .one 0x69 (by decide)]) ∧
      decode [0x48, 0x69] = some "Hi" ∧ decodeGroups [0x48, 0x69] = some "Hi" := by
  have hdecode : decode [0x41, 0xC0, 0x80, 0xED, 0xA0, 0xBD, 0xED, 0xB8, 0x80, 0xED, 0xA0, 0x80] =
      some "A\x00😀\uFFFD" := by decide +kernel
  have hplain : decode [0x48, 0x69] = some "Hi" := by decide +kernel
  obtain ⟨hdirect, hgroups⟩ := (decode_iff_groups [0x48, 0x69]).2.2.2 (by simp)
  refine ⟨((decode_iff_groups _).2.1 _).1 hdecode, fun others h => ?_, hplain, ?_⟩
  · exact (decode_iff_groups [0x48, 0x69]).2.2.1 others _ h rfl
  · rw [← hgroups, ← hdirect, hplain]

def threeBytes (n : Nat) : List UInt8 :=
  [(0xE0 + n / 2 ^ 12).toUInt8, (0x80 + n / 2 ^ 6 % 2 ^ 6).toUInt8, (0x80 + n % 2 ^ 6).toUInt8]

def bytesOfChar (c : Char) : List UInt8 :=
  if c.toNat = 0 then [0xC0, 0x80]
  else if c.toNat ≤ 0x7F then [c.toNat.toUInt8]
  else if c.toNat ≤ 0x7FF then [(0xC0 + c.toNat / 2 ^ 6).toUInt8, (0x80 + c.toNat % 2 ^ 6).toUInt8]
  else if c.toNat ≤ 0xFFFF then threeBytes c.toNat
  else threeBytes (0xD800 + (c.toNat - 0x10000) / 0x400) ++
    threeBytes (0xDC00 + (c.toNat - 0x10000) % 0x400)

theorem eq_toUInt8 {b : UInt8} {n : Nat} (h : b.toNat = n) : b = n.toUInt8 := by
  rw [← h]
  exact UInt8.ofNat_toNat.symm

theorem continuation_eq (u : UInt16) : continuation u = (0x80 + u.toNat % 2 ^ 6).toUInt8 :=
  eq_toUInt8 (toNat_continuation u)

theorem bytesOfUnit_one {u : UInt16} (h : 0x01 ≤ u.toNat ∧ u.toNat ≤ 0x7F) :
    bytesOfUnit u = [u.toNat.toUInt8] := by
  rw [bytesOfUnit, if_pos]
  · rfl
  · simpa [UInt16.le_iff_toNat_le] using h

theorem bytesOfUnit_two {u : UInt16} (h : u.toNat = 0 ∨ 0x80 ≤ u.toNat ∧ u.toNat ≤ 0x7FF) :
    bytesOfUnit u = [(0xC0 + u.toNat / 2 ^ 6).toUInt8, (0x80 + u.toNat % 2 ^ 6).toUInt8] := by
  have hlt : u.toNat < 2048 := by omega
  rw [bytesOfUnit, if_neg, if_pos, continuation_eq, eq_toUInt8 (toNat_leadOfTwo u hlt)]
  · rfl
  · rw [UInt16.le_iff_toNat_le]
    exact Nat.le_of_lt_succ hlt
  · simp only [Bool.and_eq_true, decide_eq_true_eq, UInt16.le_iff_toNat_le, UInt16.reduceToNat]
    omega

theorem bytesOfUnit_three {u : UInt16} (h : 0x800 ≤ u.toNat) : bytesOfUnit u = threeBytes u.toNat := by
  rw [bytesOfUnit, if_neg, if_neg, continuation_eq, continuation_eq, UInt16.toNat_shiftRight,
    eq_toUInt8 (toNat_leadOfThree u), threeBytes]
  · simp only [UInt16.reduceToNat, Nat.reduceMod, Nat.shiftRight_eq_div_pow]
    rfl
  · simp only [UInt16.le_iff_toNat_le, UInt16.reduceToNat]
    omega
  · simp only [Bool.and_eq_true, decide_eq_true_eq, UInt16.le_iff_toNat_le, UInt16.reduceToNat]
    omega

theorem flatMap_bytesOfUnit_unitsOfChar (c : Char) :
    (unitsOfChar c).flatMap bytesOfUnit = bytesOfChar c := by
  have hvalid : c.toNat < 55296 ∨ 57343 < c.toNat ∧ c.toNat < 1114112 := c.valid
  rw [unitsOfChar, bytesOfChar]
  by_cases hpair : c.toNat < 0x10000
  · have hu : c.toNat.toUInt16.toNat = c.toNat := UInt16.toNat_ofNat_of_lt hpair
    rw [if_pos hpair, List.flatMap_singleton]
    split_ifs with hzero hone htwo hthree
    · rw [bytesOfUnit_two (.inl (hu.trans hzero)), hu, hzero]
      rfl
    · rw [bytesOfUnit_one (by omega), hu]
    · rw [bytesOfUnit_two (.inr (by omega)), hu]
    · rw [bytesOfUnit_three (by omega), hu]
    · omega
  · have hhigh : (0xD800 + (c.toNat - 0x10000) / 0x400).toUInt16.toNat =
        0xD800 + (c.toNat - 0x10000) / 0x400 :=
      UInt16.toNat_ofNat_of_lt (by rw [UInt16.size]; omega)
    have hlow : (0xDC00 + (c.toNat - 0x10000) % 0x400).toUInt16.toNat =
        0xDC00 + (c.toNat - 0x10000) % 0x400 :=
      UInt16.toNat_ofNat_of_lt (by rw [UInt16.size]; omega)
    rw [if_neg hpair, if_neg (by omega), if_neg (by omega), if_neg (by omega), if_neg (by omega),
      List.flatMap_cons, List.flatMap_singleton, bytesOfUnit_three (by omega),
      bytesOfUnit_three (by omega), hhigh, hlow]

theorem encode_eq_flatMap (text : String) : encode text = text.toList.flatMap bytesOfChar := by
  rw [encode, List.flatMap_assoc]
  exact congrArg (text.toList.flatMap ·) (funext flatMap_bytesOfUnit_unitsOfChar)

/-- The spelling of a text, character by character, reads as this text, also as an entry of a pool
whose length it fits. -/
theorem decode_undoes_spelling (text : String) :
    encode text = text.toList.flatMap bytesOfChar ∧
      decode (text.toList.flatMap bytesOfChar) = some text ∧
      ((text.toList.flatMap bytesOfChar).length ≤ 65535 → ∀ (index : UInt16) (pos : Nat) (rest : Bytes),
        Pool.readConstant index ⟨pos, 1 :: (Layout.number 2 (text.toList.flatMap bytesOfChar).length ++
            text.toList.flatMap bytesOfChar ++ rest)⟩ =
          .ok (.utf8 text, ⟨pos + 3 + (text.toList.flatMap bytesOfChar).length, rest⟩)) := by
  rw [← encode_eq_flatMap]
  refine ⟨rfl, decode_encode text, fun hfits index pos rest => ?_⟩
  have hspelled : encode text ∈ ((Layout.free ⟨#[]⟩).text text).run :=
    Layout.mem_run_text.2 ⟨decode_encode text, by omega⟩
  have hentry : 1 :: Layout.number 2 (encode text).length ++ encode text ∈
      (Layout.constant (Layout.free ⟨#[]⟩) (.utf8 text)).run :=
    Layout.mem_run_bind.2 ⟨_, hspelled, Layout.mem_run_pure.2 rfl⟩
  refine (Pool.reads_readConstant ⟨#[]⟩ index _ _ _).2 ⟨_, hentry, ?_, ?_⟩
  · simp
  · simp only [List.length_append, List.length_cons, Layout.length_number]
    omega

theorem decode_undoes_spelling_sample :
    decode ("a\x00é€😀".toList.flatMap bytesOfChar) = some "a\x00é€😀" ∧
      ("a\x00é€😀".toList.flatMap bytesOfChar).length ≤ 65535 ∧
      Pool.readConstant 7 ⟨10, [1, 0, 14, 0x61, 0xC0, 0x80, 0xC3, 0xA9, 0xE2, 0x82, 0xAC, 0xED, 0xA0, 0xBD,
        0xED, 0xB8, 0x80, 0x09]⟩ = .ok (.utf8 "a\x00é€😀", ⟨27, [0x09]⟩) := by
  have hfits : ("a\x00é€😀".toList.flatMap bytesOfChar).length ≤ 65535 := by decide +kernel
  obtain ⟨-, hdecode, hstored⟩ := decode_undoes_spelling "a\x00é€😀"
  exact ⟨hdecode, hfits, hstored hfits 7 10 [0x09]⟩

end ModifiedUtf8

end ClassListing
