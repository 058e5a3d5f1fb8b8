import ClassListing.AccessFlags
import ClassListing.Opcode
import ClassListing.Pool.Describe
import ClassListing.Text.Blank
import ClassListing.Text.Column
import Mathlib.Data.List.Basic

namespace ClassListing

def Plain (cs : List Char) : Prop := ∀ c ∈ cs, isControl c = false

instance (cs : List Char) : Decidable (Plain cs) :=
  decidable_of_iff ((cs.all fun c => !isControl c) = true) (by simp [Plain])

def Clean (text : String) : Prop := Plain text.toList

instance (text : String) : Decidable (Clean text) := inferInstanceAs (Decidable (Plain text.toList))

def isWord (c : Char) : Bool := 0x30 ≤ c.val && c.val ≤ 0x7A

namespace Clean

theorem plain_cons {c : Char} {cs : List Char} : Plain (c :: cs) ↔ isControl c = false ∧ Plain cs :=
  List.forall_mem_cons

theorem plain_append {cs ds : List Char} : Plain (cs ++ ds) ↔ Plain cs ∧ Plain ds :=
  List.forall_mem_append

theorem plain_replicate {c : Char} (h : isControl c = false) (n : Nat) : Plain (List.replicate n c) := by
  intro d hd
  rw [List.eq_of_mem_replicate hd]
  exact h

theorem plain_trim {cs : List Char} (h : Plain cs) (p : Char → Bool) :
    Plain (cs.reverse.dropWhile p).reverse := by
  intro c hc
  have hmem := List.dropWhile_subset p (List.mem_reverse.1 hc)
  exact h c (List.mem_reverse.1 hmem)

theorem clean_ofList {cs : List Char} : Clean (String.ofList cs) ↔ Plain cs := by
  rw [Clean, String.toList_ofList]

@[simp]
theorem clean_append {s t : String} : Clean (s ++ t) ↔ Clean s ∧ Clean t := by
  rw [Clean, String.toList_append, plain_append]
  rfl

theorem clean_after {before text : String} (h : Clean before) : Clean (before ++ text) ↔ Clean text :=
  clean_append.trans (and_iff_right h)

theorem clean_join {texts : List String} : Clean (String.join texts) ↔ ∀ t ∈ texts, Clean t := by
  simp only [Clean, Plain, String.toList_join, List.mem_flatMap, forall_exists_index, and_imp]
  exact ⟨fun h t ht c hc => h c t ht hc, fun h c t ht hc => h t ht c hc⟩

theorem clean_intercalate {separator : String} (h : Clean separator) {texts : List String} :
    Clean (separator.intercalate texts) ↔ ∀ t ∈ texts, Clean t := by
  induction texts with
  | nil => simp [Clean, Plain]
  | cons text texts ih =>
      cases texts with
      | nil => simp
      | cons next texts =>
          rw [String.intercalate_cons_cons, clean_append, clean_append, ih, List.forall_mem_cons (a := text)]
          simp only [h, and_true]

theorem clean_right {width : Nat} {text : String} : Clean (Column.right width text) ↔ Clean text := by
  rw [Column.right, clean_ofList, List.leftpad, plain_append]
  exact and_iff_right (plain_replicate (by decide) _)

theorem clean_left {width : Nat} {text : String} : Clean (Column.left width text) ↔ Clean text := by
  rw [Column.left, clean_ofList, List.rightpad, plain_append]
  exact and_iff_left (plain_replicate (by decide) _)

theorem clean_quoteAfter {mark : Char} {text : String} :
    Clean (quoteAfter mark text) ↔ Clean text := by
  have hquote : Clean "\"" := by decide
  rw [quoteAfter]
  split
  · simp only [clean_append, hquote, true_and, and_true]
  · exact Iff.rfl

theorem clean_trimRight {text : String} (h : Clean text) : Clean (trimRight text) :=
  clean_ofList.2 (plain_trim h isBlank)

theorem forall_mem_toDigits {P : Char → Prop} {base : Nat} (hbase : 1 < base)
    (h : ∀ d < base, P (Nat.digitChar d)) (n : Nat) : ∀ c ∈ Nat.toDigits base n, P c := by
  induction n using Nat.strongRecOn with
  | _ n ih =>
      rw [Nat.toDigits_eq_if hbase]
      split
      next hn => exact List.forall_mem_singleton.2 (h n hn)
      next hn =>
        have hlt : n / base < n := Nat.div_lt_self (by omega) hbase
        rw [List.forall_mem_append]
        exact ⟨ih _ hlt, List.forall_mem_singleton.2 (h _ (Nat.mod_lt n (by omega)))⟩

theorem plain_digits (n : Nat) : Plain (Nat.toDigits 10 n) :=
  forall_mem_toDigits (by decide) (by decide) n

theorem clean_natural (n : Nat) : Clean (Numeral.natural n) := clean_ofList.2 (plain_digits n)

theorem clean_decimal (n : Int) : Clean (Numeral.decimal n) := by
  cases n with
  | ofNat n => exact clean_natural n
  | negSucc n => exact clean_append.2 ⟨by decide, clean_natural _⟩

theorem clean_upperHex (width n : Nat) : Clean (Numeral.upperHex width n) := by
  rw [Numeral.upperHex, clean_ofList, Numeral.hexDigits, List.leftpad, List.map_append,
    List.map_replicate, plain_append]
  refine ⟨plain_replicate (by decide) _, List.forall_mem_map.2 ?_⟩
  exact forall_mem_toDigits (by decide) (by decide) n

theorem plain_escapeChar (c : Char) : Plain (escapeChar c) := by
  rw [escapeChar]
  split
  · decide
  · split
    · decide
    · split
      · decide
      · split
        next => exact plain_cons.2 ⟨by decide, plain_cons.2 ⟨by decide, clean_upperHex _ _⟩⟩
        next h => exact List.forall_mem_singleton.2 (Bool.not_eq_true _ ▸ h)

theorem clean_escape (text : String) : Clean (escape text) := by
  rw [escape, clean_ofList]
  intro d hd
  obtain ⟨c, -, hd⟩ := List.mem_flatMap.1 hd
  exact plain_escapeChar c d hd

section Decimal

open Decimal

theorem plain_scientific {s : Scientific} (hfirst : isControl s.first = false)
    (hothers : Plain s.others) : Plain s.text := by
  have hdigits : Plain (s.first :: s.others) := plain_cons.2 ⟨hfirst, hothers⟩
  have hzeros (n : Nat) : Plain (List.replicate n '0') := plain_replicate (by decide) n
  rw [Scientific.text]
  split
  · rw [Scientific.positional]
    split
    · exact plain_append.2 ⟨plain_append.2 ⟨by decide, hzeros _⟩, hdigits⟩
    · refine plain_append.2 ⟨plain_append.2 ⟨?_, hzeros _⟩, plain_cons.2 ⟨by decide, ?_⟩⟩
      · exact fun c hc => hdigits c (List.mem_of_mem_take hc)
      · split
        · decide
        · exact fun c hc => hdigits c (List.mem_of_mem_drop hc)
  · refine plain_append.2 ⟨plain_cons.2 ⟨hfirst, ?_⟩, plain_cons.2 ⟨by decide, clean_decimal _⟩⟩
    split
    · decide
    · exact plain_cons.2 ⟨by decide, hothers⟩

theorem plain_dyadic (x : Decimal.Dyadic) : Plain x.text := by
  rw [Decimal.Dyadic.text]
  split
  · decide
  · have hdigits := plain_digits x.shortest.digits
    apply plain_scientific
    · change isControl ((Nat.toDigits 10 x.shortest.digits).headD '0') = false
      cases h : Nat.toDigits 10 x.shortest.digits with
      | nil => decide
      | cons c cs => exact hdigits c (by simp [h])
    · exact plain_trim (fun c hc => hdigits c (List.mem_of_mem_tail hc)) _

theorem clean_binary (format : BinaryFormat) (bits : Nat) : Clean (format.text bits) := by
  have hsign : Clean (if format.isNegative bits then "-" else "") := by
    split <;> decide
  rw [BinaryFormat.text]
  split
  · decide
  · exact clean_append.2 ⟨hsign, by decide⟩
  · exact clean_append.2 ⟨hsign, clean_ofList.2 (plain_dyadic _)⟩

end Decimal

section Names

theorem clean_indexText (index : UInt16) : Clean (indexText index) :=
  clean_append.2 ⟨by decide, clean_natural _⟩

theorem isWord_mnemonic (op : Opcode) : ∀ c ∈ op.mnemonic.toList, isWord c = true := by
  have hall : ∀ name ∈ mnemonics.toList, name.toList.all isWord = true := by decide +kernel
  exact List.all_eq_true.1 (hall op.mnemonic (Vector.mem_toList_iff.2 (Vector.getElem_mem op.assigned)))

theorem isControl_of_isWord {c : Char} (h : isWord c = true) : isControl c = false := by
  simp only [isWord, Bool.and_eq_true, decide_eq_true_eq, UInt32.le_iff_toNat_le,
    UInt32.reduceToNat] at h
  simp only [isControl, Bool.or_eq_false_iff, Bool.and_eq_false_iff, decide_eq_false_iff_not,
    UInt32.lt_iff_toNat_lt, UInt32.le_iff_toNat_le, UInt32.reduceToNat]
  omega

theorem clean_mnemonic (op : Opcode) : Clean op.mnemonic := by
  intro c hc
  exact isControl_of_isWord (isWord_mnemonic op c hc)

theorem clean_flags (declared : Declared) :
    ∀ flag ∈ declared.flags, Clean flag.name ∧ ∀ keyword ∈ flag.keyword, Clean keyword := by
  cases declared <;> decide +kernel

theorem clean_flagNames (declared : Declared) (word : UInt16) :
    ∀ name ∈ flagNames declared word, Clean name := by
  rw [flagNames, List.forall_mem_map]
  exact fun flag hflag => (clean_flags declared flag (List.mem_of_mem_filter hflag)).1

theorem clean_modifiers (declared : Declared) (word : UInt16) : Clean (modifiers declared word) := by
  rw [modifiers, clean_join, List.forall_mem_map]
  intro keyword hkeyword
  obtain ⟨flag, hflag, hk⟩ := List.mem_filterMap.1 hkeyword
  have hmem := List.mem_of_mem_filter (List.mem_of_mem_filter hflag)
  exact clean_append.2 ⟨(clean_flags declared flag hmem).2 keyword hk, by decide⟩

theorem clean_classKeyword (kind : ClassKind) : Clean kind.keyword := by
  cases kind <;> decide

theorem clean_kindName (kind : ConstantKind) : Clean kind.name := by
  cases kind with
  | member kind => cases kind <;> decide
  | _ => decide

theorem clean_operandLabel (kind : ConstantKind) : Clean kind.operandLabel := by
  cases kind with
  | member kind => cases kind <;> decide
  | _ => decide

theorem clean_referenceKindName (code : UInt8) : Clean (referenceKindName code) := by
  rw [referenceKindName]
  split
  next kind _ => cases kind <;> decide
  next => decide

theorem clean_arrayType (element : ArrayType) : Clean element.name := by
  cases element <;> decide

theorem clean_operandText (constant : Constant) : Clean constant.operandText := by
  cases constant with
  | utf8 text => exact clean_escape text
  | integer value => exact clean_decimal _
  | float bits => exact clean_append.2 ⟨clean_binary _ _, by decide⟩
  | long value => exact clean_append.2 ⟨clean_decimal _, by decide⟩
  | double bits => exact clean_append.2 ⟨clean_binary _ _, by decide⟩
  | classRef | module | package | string | methodType => exact clean_indexText _
  | member | nameAndType | dynamic | invokeDynamic =>
      exact clean_append.2 ⟨clean_append.2 ⟨clean_indexText _, by decide⟩, clean_indexText _⟩
  | methodHandle =>
      exact clean_append.2 ⟨clean_append.2 ⟨clean_natural _, by decide⟩, clean_indexText _⟩

end Names

end Clean

end ClassListing
