import ClassListing.Text.ModifiedUtf8
import Mathlib.Data.List.Basic

namespace ClassListing.ModifiedUtf8

open Utf16

theorem isSingle_iff (b : UInt8) : isSingle b = true ↔ 1 ≤ b.toNat ∧ b.toNat ≤ 127 := by
  simp [isSingle, UInt8.le_iff_toNat_le]

theorem isLeadOfTwo_iff (b : UInt8) : isLeadOfTwo b = true ↔ 192 ≤ b.toNat ∧ b.toNat ≤ 223 := by
  simp [isLeadOfTwo, UInt8.le_iff_toNat_le]

theorem isLeadOfThree_iff (b : UInt8) :
    isLeadOfThree b = true ↔ 224 ≤ b.toNat ∧ b.toNat ≤ 239 := by
  simp [isLeadOfThree, UInt8.le_iff_toNat_le]

theorem isContinuation_iff (b : UInt8) :
    isContinuation b = true ↔ 128 ≤ b.toNat ∧ b.toNat ≤ 191 := by
  simp [isContinuation, UInt8.le_iff_toNat_le]

theorem units?_single {b : UInt8} (h : isSingle b = true) (rest : List UInt8) :
    units? (b :: rest) = (units? rest).map (b.toUInt16 :: ·) := by
  rw [units?.eq_def]
  exact if_pos h

theorem units?_two {b c : UInt8} (hb : isLeadOfTwo b = true) (hc : isContinuation c = true)
    (rest : List UInt8) : units? (b :: c :: rest) = (units? rest).map (unitOfTwo b c :: ·) := by
  have hs : ¬isSingle b = true := by
    rw [isSingle_iff]
    rw [isLeadOfTwo_iff] at hb
    omega
  rw [units?.eq_def]
  simp only [if_neg hs, if_pos hb, if_pos hc]

theorem units?_three {b c d : UInt8} (hb : isLeadOfThree b = true) (hc : isContinuation c = true)
    (hd : isContinuation d = true) (rest : List UInt8) :
    units? (b :: c :: d :: rest) = (units? rest).map (unitOfThree b c d :: ·) := by
  rw [isLeadOfThree_iff] at hb
  have hs : ¬isSingle b = true := by rw [isSingle_iff]; omega
  have htwo : ¬isLeadOfTwo b = true := by rw [isLeadOfTwo_iff]; omega
  rw [units?.eq_def]
  simp only [if_neg hs, if_neg htwo, if_pos ((isLeadOfThree_iff b).2 hb), hc, hd, Bool.and_self,
    if_true]

theorem toNat_unitOfTwo (b c : UInt8) :
    (unitOfTwo b c).toNat = b.toNat % 32 * 64 + c.toNat % 64 := by
  have hb := b.toNat_lt
  have h := Nat.shiftLeft_add_eq_or_of_lt (i := 6) (b := c.toNat % 64) (by omega) (b.toNat % 32)
  have hb' : b.toNat &&& 31 = b.toNat % 32 := Nat.and_two_pow_sub_one_eq_mod _ 5
  have hc' : c.toNat &&& 63 = c.toNat % 64 := Nat.and_two_pow_sub_one_eq_mod _ 6
  simp only [unitOfTwo, UInt16.toNat_or, UInt16.toNat_shiftLeft, UInt16.toNat_and,
    UInt8.toNat_toUInt16, UInt16.reduceToNat, Nat.reduceMod, hb', hc']
  rw [Nat.mod_eq_of_lt (by rw [Nat.shiftLeft_eq]; omega), ← h, Nat.shiftLeft_eq]

theorem toNat_unitOfThree (b c d : UInt8) :
    (unitOfThree b c d).toNat = b.toNat % 16 * 4096 + (c.toNat % 64 * 64 + d.toNat % 64) := by
  have h := Nat.shiftLeft_add_eq_or_of_lt (i := 6) (b := d.toNat % 64) (by omega) (c.toNat % 64)
  have h' := Nat.shiftLeft_add_eq_or_of_lt (i := 12)
    (b := c.toNat % 64 * 64 + d.toNat % 64) (by omega) (b.toNat % 16)
  have hb' : b.toNat &&& 15 = b.toNat % 16 := Nat.and_two_pow_sub_one_eq_mod _ 4
  have hc' : c.toNat &&& 63 = c.toNat % 64 := Nat.and_two_pow_sub_one_eq_mod _ 6
  have hd' : d.toNat &&& 63 = d.toNat % 64 := Nat.and_two_pow_sub_one_eq_mod _ 6
  simp only [unitOfThree, UInt16.toNat_or, UInt16.toNat_shiftLeft, UInt16.toNat_and,
    UInt8.toNat_toUInt16, UInt16.reduceToNat, Nat.reduceMod, hb', hc', hd']
  rw [Nat.mod_eq_of_lt (a := _ <<< 12) (by rw [Nat.shiftLeft_eq]; omega),
    Nat.mod_eq_of_lt (a := _ <<< 6) (by rw [Nat.shiftLeft_eq]; omega), Nat.or_assoc, ← h,
    Nat.shiftLeft_eq _ 6, ← h', Nat.shiftLeft_eq]

theorem toNat_continuation (u : UInt16) : (continuation u).toNat = 128 + u.toNat % 64 := by
  have h := Nat.or_two_pow_eq_add_of_lt (a := u.toNat % 64) (n := 7) (by omega)
  have hu : u.toNat &&& 63 = u.toNat % 64 := Nat.and_two_pow_sub_one_eq_mod _ 6
  simp only [continuation, UInt16.toNat_toUInt8, UInt16.toNat_or, UInt16.toNat_and,
    UInt16.reduceToNat, hu]
  rw [show (128 : Nat) = 2 ^ 7 from rfl, h]
  omega

theorem toNat_leadOfTwo (u : UInt16) (h : u.toNat < 2048) :
    ((u >>> 6) ||| 0xC0).toUInt8.toNat = 192 + u.toNat / 64 := by
  have hor := Nat.shiftLeft_add_eq_or_of_lt (i := 6) (b := u.toNat / 64) (by omega) 3
  simp only [UInt16.toNat_toUInt8, UInt16.toNat_or, UInt16.toNat_shiftRight, UInt16.reduceToNat,
    Nat.reduceMod, Nat.shiftRight_eq_div_pow, Nat.reducePow]
  rw [Nat.or_comm, show (192 : Nat) = 3 <<< 6 from rfl, ← hor, show (3 <<< 6 : Nat) = 192 from rfl]
  omega

theorem toNat_leadOfThree (u : UInt16) :
    ((u >>> 12) ||| 0xE0).toUInt8.toNat = 224 + u.toNat / 4096 := by
  have hu := u.toNat_lt
  have hor := Nat.shiftLeft_add_eq_or_of_lt (i := 4) (b := u.toNat / 4096) (by omega) 14
  simp only [UInt16.toNat_toUInt8, UInt16.toNat_or, UInt16.toNat_shiftRight, UInt16.reduceToNat,
    Nat.reduceMod, Nat.shiftRight_eq_div_pow, Nat.reducePow]
  rw [Nat.or_comm, show (224 : Nat) = 14 <<< 4 from rfl, ← hor, show (14 <<< 4 : Nat) = 224 from rfl]
  omega

theorem unitOfTwo_of_lt (u : UInt16) (h : u.toNat < 2048) :
    unitOfTwo ((u >>> 6) ||| 0xC0).toUInt8 (continuation u) = u := by
  apply UInt16.toNat_inj.1
  rw [toNat_unitOfTwo, toNat_leadOfTwo u h, toNat_continuation]
  omega

theorem unitOfThree_eq (u : UInt16) :
    unitOfThree ((u >>> 12) ||| 0xE0).toUInt8 (continuation (u >>> 6)) (continuation u) = u := by
  have hu := u.toNat_lt
  apply UInt16.toNat_inj.1
  rw [toNat_unitOfThree, toNat_leadOfThree, toNat_continuation, toNat_continuation]
  simp only [UInt16.toNat_shiftRight, UInt16.reduceToNat, Nat.reduceMod, Nat.shiftRight_eq_div_pow,
    Nat.reducePow]
  omega

theorem units?_bytesOfUnit_append (u : UInt16) (rest : List UInt8) :
    units? (bytesOfUnit u ++ rest) = (units? rest).map (u :: ·) := by
  have hu := u.toNat_lt
  have hc (v : UInt16) : isContinuation (continuation v) = true := by
    rw [isContinuation_iff, toNat_continuation]
    omega
  rw [bytesOfUnit]
  simp only [Bool.and_eq_true, decide_eq_true_eq, UInt16.le_iff_toNat_le, UInt16.reduceToNat]
  split
  next h =>
    have hback : u.toUInt8.toUInt16 = u := by
      apply UInt16.toNat_inj.1
      rw [UInt8.toNat_toUInt16, UInt16.toNat_toUInt8]
      omega
    have hs : isSingle u.toUInt8 = true := by
      rw [isSingle_iff, UInt16.toNat_toUInt8]
      omega
    rw [List.singleton_append, units?_single hs, hback]
  next h =>
    split
    next h' =>
      have hlead := toNat_leadOfTwo u (by omega)
      have hb : isLeadOfTwo ((u >>> 6) ||| 0xC0).toUInt8 = true := by
        rw [isLeadOfTwo_iff, hlead]
        omega
      rw [List.cons_append, List.singleton_append, units?_two hb (hc u),
        unitOfTwo_of_lt u (by omega)]
    next h' =>
      have hb : isLeadOfThree ((u >>> 12) ||| 0xE0).toUInt8 = true := by
        rw [isLeadOfThree_iff, toNat_leadOfThree]
        omega
      rw [List.cons_append, List.cons_append, List.singleton_append,
        units?_three hb (hc _) (hc u), unitOfThree_eq]

theorem units?_flatMap_bytesOfUnit (us : List UInt16) :
    units? (us.flatMap bytesOfUnit) = some us := by
  induction us with
  | nil => rfl
  | cons u us ih => rw [List.flatMap_cons, units?_bytesOfUnit_append, ih, Option.map_some]

theorem isHighSurrogate_iff (u : UInt16) :
    isHighSurrogate u = true ↔ 0xD800 ≤ u.toNat ∧ u.toNat ≤ 0xDBFF := by
  simp [isHighSurrogate, UInt16.le_iff_toNat_le]

theorem isLowSurrogate_iff (u : UInt16) :
    isLowSurrogate u = true ↔ 0xDC00 ≤ u.toNat ∧ u.toNat ≤ 0xDFFF := by
  simp [isLowSurrogate, UInt16.le_iff_toNat_le]

theorem isSurrogate_iff (u : UInt16) : isSurrogate u = true ↔ 55296 ≤ u.toNat ∧ u.toNat ≤ 57343 := by
  rw [isSurrogate, Bool.or_eq_true, isHighSurrogate_iff, isLowSurrogate_iff]
  omega

theorem chars_cons_of_not_high {u : UInt16} (h : isHighSurrogate u = false) (rest : List UInt16) :
    chars (u :: rest) = charOfUnit u :: chars rest := by
  cases rest with
  | nil => rfl
  | cons v rest => simp [chars, h]

theorem toNat_charOfUnit {u : UInt16} (h : isSurrogate u = false) :
    (charOfUnit u).toNat = u.toNat := by
  have hlt := u.toNat_lt
  have hvalid : u.toNat.isValidChar := by
    rw [Bool.eq_false_iff, ne_eq, isSurrogate_iff] at h
    rcases Nat.lt_or_ge u.toNat 55296 with hl | hl
    · exact .inl hl
    · exact .inr (by omega)
  rw [charOfUnit, h, if_neg Bool.false_ne_true, Utf16.charOfUnit, Char.ofNat, dif_pos hvalid]
  rfl

/-- A byte that is a group of its own spells in UTF-8 the character that it spells here. -/
theorem utf8EncodeChar_charOfUnit {b : UInt8} (h : isSingle b = true) :
    String.utf8EncodeChar (charOfUnit b.toUInt16) = [b] := by
  rw [isSingle_iff] at h
  have hs : isSurrogate b.toUInt16 = false := by
    rw [Bool.eq_false_iff, ne_eq, isSurrogate_iff, UInt8.toNat_toUInt16]
    omega
  have hnumber : (charOfUnit b.toUInt16).val.toNat = b.toNat := by
    rw [← UInt8.toNat_toUInt16]
    exact toNat_charOfUnit hs
  rw [String.utf8EncodeChar]
  simp only [hnumber, if_pos h.2, UInt8.ofNat_toNat]

theorem exists_units_of_single {bytes : List UInt8} (h : ∀ b ∈ bytes, isSingle b = true) :
    ∃ us, units? bytes = some us ∧ (chars us).flatMap String.utf8EncodeChar = bytes := by
  induction bytes with
  | nil => exact ⟨[], rfl, rfl⟩
  | cons b bytes ih =>
      obtain ⟨hb, hbytes⟩ := List.forall_mem_cons.1 h
      obtain ⟨us, hus, hspelled⟩ := ih hbytes
      have hhigh : isHighSurrogate b.toUInt16 = false := by
        rw [isSingle_iff] at hb
        rw [Bool.eq_false_iff, ne_eq, isHighSurrogate_iff, UInt8.toNat_toUInt16]
        omega
      refine ⟨b.toUInt16 :: us, ?_, ?_⟩
      · rw [units?_single hb, hus, Option.map_some]
      · rw [chars_cons_of_not_high hhigh, List.flatMap_cons, utf8EncodeChar_charOfUnit hb, hspelled]
        rfl

theorem fromUTF8?_ofList (cs : List Char) :
    String.fromUTF8? (cs.flatMap String.utf8EncodeChar).toByteArray = some (String.ofList cs) := by
  rw [String.fromUTF8?, dif_pos ⟨cs, rfl⟩]
  rfl

theorem decodeGroups_of_single {bytes : List UInt8} (h : ∀ b ∈ bytes, isSingle b = true) :
    String.fromUTF8? bytes.toByteArray = decodeGroups bytes := by
  obtain ⟨us, hus, hspelled⟩ := exists_units_of_single h
  rw [decodeGroups, hus, Option.map_some, ← fromUTF8?_ofList, hspelled]

theorem decode_eq_decodeGroups (bytes : List UInt8) : decode bytes = decodeGroups bytes := by
  rw [decode]
  by_cases h : bytes.all isSingle = true
  · rw [if_pos h]
    exact decodeGroups_of_single (List.all_eq_true.1 h)
  · rw [if_neg h]

theorem chars_unitsOfChar_append (c : Char) (rest : List UInt16) :
    chars (unitsOfChar c ++ rest) = c :: chars rest := by
  have hvalid : c.toNat < 55296 ∨ 57343 < c.toNat ∧ c.toNat < 1114112 := c.valid
  rw [unitsOfChar]
  split
  next h =>
    have hu : c.toNat.toUInt16.toNat = c.toNat := by
      rw [Nat.toUInt16_eq, UInt16.toNat_ofNat']
      omega
    have hs : isSurrogate c.toNat.toUInt16 = false := by
      rw [Bool.eq_false_iff, ne_eq, isSurrogate_iff, hu]
      omega
    have hhigh : isHighSurrogate c.toNat.toUInt16 = false := by
      rw [isSurrogate, Bool.or_eq_false_iff] at hs
      exact hs.1
    rw [List.singleton_append, chars_cons_of_not_high hhigh, charOfUnit, hs, Utf16.charOfUnit, hu]
    simp [Char.ofNat_toNat]
  next h =>
    have hhigh : (0xD800 + (c.toNat - 0x10000) / 0x400).toUInt16.toNat =
        0xD800 + (c.toNat - 0x10000) / 0x400 := by
      rw [Nat.toUInt16_eq, UInt16.toNat_ofNat']
      omega
    have hlow : (0xDC00 + (c.toNat - 0x10000) % 0x400).toUInt16.toNat =
        0xDC00 + (c.toNat - 0x10000) % 0x400 := by
      rw [Nat.toUInt16_eq, UInt16.toNat_ofNat']
      omega
    have hpair : (isHighSurrogate (0xD800 + (c.toNat - 0x10000) / 0x400).toUInt16 &&
        isLowSurrogate (0xDC00 + (c.toNat - 0x10000) % 0x400).toUInt16) = true := by
      rw [Bool.and_eq_true, isHighSurrogate_iff, isLowSurrogate_iff, hhigh, hlow]
      omega
    have hvalue : 0x10000 + (0xD800 + (c.toNat - 0x10000) / 0x400 - 0xD800) * 0x400 +
        (0xDC00 + (c.toNat - 0x10000) % 0x400 - 0xDC00) = c.toNat := by omega
    simp only [List.cons_append, List.nil_append, chars]
    rw [if_pos hpair, charOfPair, hhigh, hlow, hvalue, Char.ofNat_toNat]

theorem chars_flatMap_unitsOfChar (cs : List Char) : chars (cs.flatMap unitsOfChar) = cs := by
  induction cs with
  | nil => rfl
  | cons c cs ih => rw [List.flatMap_cons, chars_unitsOfChar_append, ih]

theorem decode_encode (text : String) : decode (encode text) = some text := by
  rw [decode_eq_decodeGroups, decodeGroups, encode, units?_flatMap_bytesOfUnit, Option.map_some,
    chars_flatMap_unitsOfChar, String.ofList_toList]

theorem length_bytesOfUnit (u : UInt16) : (bytesOfUnit u).length =
    if 1 ≤ u.toNat ∧ u.toNat ≤ 127 then 1 else if u.toNat < 2048 then 2 else 3 := by
  simp only [bytesOfUnit, Bool.and_eq_true, decide_eq_true_eq, UInt16.le_iff_toNat_le,
    UInt16.reduceToNat, ← Nat.lt_succ_iff (n := 2047)]
  split
  · rfl
  · split <;> rfl

theorem length_flatMap_bytesOfUnit_le {bytes : List UInt8} {us : List UInt16}
    (h : units? bytes = some us) : (us.flatMap bytesOfUnit).length ≤ bytes.length := by
  fun_induction units? bytes generalizing us with
  | case1 => simp_all
  | case2 b rest hb ih =>
    obtain ⟨vs, hvs, rfl⟩ := Option.map_eq_some_iff.1 h
    have hlen : (bytesOfUnit b.toUInt16).length = 1 := by
      rw [length_bytesOfUnit, UInt8.toNat_toUInt16, if_pos ((isSingle_iff b).1 hb)]
    have := ih hvs
    simp only [List.flatMap_cons, List.length_append, List.length_cons, hlen]
    omega
  | case3 b hs hb c rest hc ih =>
    obtain ⟨vs, hvs, rfl⟩ := Option.map_eq_some_iff.1 h
    have hlen : (bytesOfUnit (unitOfTwo b c)).length ≤ 2 := by
      rw [length_bytesOfUnit, toNat_unitOfTwo]
      split_ifs <;> omega
    have := ih hvs
    simp only [List.flatMap_cons, List.length_append, List.length_cons]
    omega
  | case6 b hs htwo hb c d rest hcd ih =>
    obtain ⟨vs, hvs, rfl⟩ := Option.map_eq_some_iff.1 h
    have hlen : (bytesOfUnit (unitOfThree b c d)).length ≤ 3 := by
      rw [length_bytesOfUnit]
      split_ifs <;> omega
    have := ih hvs
    simp only [List.flatMap_cons, List.length_append, List.length_cons]
    omega
  | case4 | case5 | case7 | case8 | case9 => simp at h

theorem toNat_charOfPair {u v : UInt16} (hu : isHighSurrogate u = true)
    (hv : isLowSurrogate v = true) :
    (charOfPair u v).toNat = 0x10000 + (u.toNat - 0xD800) * 0x400 + (v.toNat - 0xDC00) := by
  rw [isHighSurrogate_iff] at hu
  rw [isLowSurrogate_iff] at hv
  have hvalid : (0x10000 + (u.toNat - 0xD800) * 0x400 + (v.toNat - 0xDC00)).isValidChar :=
    .inr (by omega)
  rw [charOfPair, Char.ofNat, dif_pos hvalid]
  rfl

theorem unitsOfChar_charOfPair {u v : UInt16} (hu : isHighSurrogate u = true)
    (hv : isLowSurrogate v = true) : unitsOfChar (charOfPair u v) = [u, v] := by
  have hchar := toNat_charOfPair hu hv
  rw [isHighSurrogate_iff] at hu
  rw [isLowSurrogate_iff] at hv
  have hhigh : (0xD800 + ((charOfPair u v).toNat - 0x10000) / 0x400).toUInt16 = u := by
    rw [hchar, show 0xD800 + (0x10000 + (u.toNat - 0xD800) * 0x400 + (v.toNat - 0xDC00) - 0x10000) /
      0x400 = u.toNat by omega]
    exact UInt16.ofNat_toNat
  have hlow : (0xDC00 + ((charOfPair u v).toNat - 0x10000) % 0x400).toUInt16 = v := by
    rw [hchar, show 0xDC00 + (0x10000 + (u.toNat - 0xD800) * 0x400 + (v.toNat - 0xDC00) - 0x10000) %
      0x400 = v.toNat by omega]
    exact UInt16.ofNat_toNat
  rw [unitsOfChar, if_neg (by rw [hchar]; omega)]
  simp only [hhigh, hlow]

/-- A unit without a partner comes back as it was, or as a replacement of the same length. -/
theorem length_bytes_charOfUnit (u : UInt16) :
    ((unitsOfChar (charOfUnit u)).flatMap bytesOfUnit).length = (bytesOfUnit u).length := by
  have hlt := u.toNat_lt
  rw [charOfUnit]
  split
  next h =>
    rw [isSurrogate_iff] at h
    rw [length_bytesOfUnit, if_neg (by omega), if_neg (by omega)]
    rfl
  next h =>
    have hchar : (Utf16.charOfUnit u).toNat = u.toNat := by
      have hnumber := toNat_charOfUnit (Bool.eq_false_iff.2 h)
      rwa [charOfUnit, if_neg h] at hnumber
    rw [unitsOfChar, if_pos (by omega), hchar, show u.toNat.toUInt16 = u from UInt16.ofNat_toNat]
    simp

theorem length_bytes_chars (us : List UInt16) :
    (((chars us).flatMap unitsOfChar).flatMap bytesOfUnit).length =
      (us.flatMap bytesOfUnit).length := by
  fun_induction chars us with
  | case1 => rfl
  | case2 u => simpa using length_bytes_charOfUnit u
  | case3 u v rest h ih =>
    rw [Bool.and_eq_true] at h
    simp [unitsOfChar_charOfPair h.1 h.2, ih]
  | case4 u v rest h ih =>
    rw [List.flatMap_cons, List.flatMap_append, List.length_append, length_bytes_charOfUnit, ih]
    simp

/-- The spelling that `encode` gives a text is the shortest one. -/
theorem length_encode_le {bytes : List UInt8} {text : String} (h : decode bytes = some text) :
    (encode text).length ≤ bytes.length := by
  rw [decode_eq_decodeGroups] at h
  obtain ⟨us, hus, rfl⟩ := Option.map_eq_some_iff.1 h
  rw [encode, String.toList_ofList, length_bytes_chars]
  exact length_flatMap_bytesOfUnit_le hus

end ClassListing.ModifiedUtf8
