import ClassListing.Proofs.Text.Clean
import Mathlib.Data.List.Nodup
import Mathlib.Logic.Function.Basic

namespace ClassListing

def Ends (p : Char → Bool) (cs : List Char) : Prop := ∀ c ∈ cs.head?, p c = false

section Ends

variable {p : Char → Bool} {u v s t : List Char}

theorem ends_cons {c : Char} : Ends p (c :: s) ↔ p c = false := by
  simp [Ends]

theorem takeWhile_append_of_ends (hu : ∀ c ∈ u, p c = true) (hs : Ends p s) :
    (u ++ s).takeWhile p = u := by
  rw [List.takeWhile_append_of_pos hu]
  cases s with
  | nil => rw [List.takeWhile_nil, List.append_nil]
  | cons c s => rw [List.takeWhile_cons_of_neg (by rw [ends_cons.1 hs]; decide), List.append_nil]

theorem append_inj_of_ends (hu : ∀ c ∈ u, p c = true) (hv : ∀ c ∈ v, p c = true) (hs : Ends p s)
    (ht : Ends p t) (h : u ++ s = v ++ t) : u = v ∧ s = t := by
  have huv : u = v := by
    rw [← takeWhile_append_of_ends hu hs, h, takeWhile_append_of_ends hv ht]
  subst huv
  exact ⟨rfl, List.append_cancel_left h⟩

end Ends

namespace Column

theorem toList_right (width : Nat) (text : String) :
    (right width text).toList = List.replicate (width - text.toList.length) ' ' ++ text.toList := by
  rw [right, String.toList_ofList, List.leftpad]

theorem toList_left (width : Nat) (text : String) :
    (left width text).toList = text.toList ++ List.replicate (width - text.toList.length) ' ' := by
  rw [left, String.toList_ofList, List.rightpad]

end Column

/-- Different values are written in different ways, with characters of the class only. -/
structure Token {α : Type} (p : Char → Bool) (write : α → String) : Prop where
  chars : ∀ a, ∀ c ∈ (write a).toList, p c = true
  nonempty : ∀ a, (write a).toList ≠ []
  injective : Function.Injective write

namespace Token

variable {α : Type} {p : Char → Bool} {write : α → String} {a b : α} {s t : List Char}

theorem append_inj (hw : Token p write) (hs : Ends p s) (ht : Ends p t)
    (h : (write a).toList ++ s = (write b).toList ++ t) : a = b ∧ s = t := by
  obtain ⟨hab, hst⟩ := append_inj_of_ends (hw.chars a) (hw.chars b) hs ht h
  exact ⟨hw.injective (String.toList_inj.1 hab), hst⟩

theorem append_cons_inj (hw : Token p write) {c : Char} (hc : p c = false)
    (h : (write a).toList ++ c :: s = (write b).toList ++ c :: t) : a = b ∧ s = t := by
  obtain ⟨hab, hst⟩ := hw.append_inj (ends_cons.2 hc) (ends_cons.2 hc) h
  exact ⟨hab, (List.cons.inj hst).2⟩

theorem ends_of_not (hw : Token p write) {q : Char → Bool} (hq : ∀ c, p c = true → q c = false) (a : α) :
    Ends q ((write a).toList ++ s) := by
  have hne := hw.nonempty a
  have hchars := hw.chars a
  cases htext : (write a).toList with
  | nil => exact absurd htext hne
  | cons c cs =>
      rw [htext] at hchars
      exact ends_cons.2 (hq c (hchars c (List.mem_cons_self)))

/-- Blanks in front of a token are none of it. -/
theorem right_append_cons_inj (hw : Token p write) (hblank : p ' ' = false) {width : Nat} {c : Char}
    (hc : p c = false) (h : (Column.right width (write a)).toList ++ c :: s =
      (Column.right width (write b)).toList ++ c :: t) : a = b ∧ s = t := by
  have hnot (d : Char) (hd : p d = true) : (d == ' ') = false := by
    rw [beq_eq_false_iff_ne]
    intro heq
    rw [heq, hblank] at hd
    cases hd
  have hblanks (n : Nat) : ∀ d ∈ List.replicate n ' ', (d == ' ') = true := by
    intro d hd
    rw [List.eq_of_mem_replicate hd]
    rfl
  rw [Column.toList_right, Column.toList_right, List.append_assoc, List.append_assoc] at h
  obtain ⟨-, h⟩ := append_inj_of_ends (hblanks _) (hblanks _) (hw.ends_of_not hnot a)
    (hw.ends_of_not hnot b) h
  exact hw.append_cons_inj hc h

end Token

namespace Numeral

theorem toList_natural (n : Nat) : (natural n).toList = Nat.toDigits 10 n := String.toList_ofList

theorem natural_injective : Function.Injective natural := by
  intro m n h
  have hdigits : Nat.toDigits 10 m = Nat.toDigits 10 n := by
    rw [← toList_natural, h, toList_natural]
  calc
    m = Nat.ofDigitChars 10 (Nat.toDigits 10 m) 0 := Nat.ofDigitChars_ten_toDigits.symm
    _ = Nat.ofDigitChars 10 (Nat.toDigits 10 n) 0 := by rw [hdigits]
    _ = n := Nat.ofDigitChars_ten_toDigits

theorem isDigit_natural (n : Nat) : ∀ c ∈ (natural n).toList, c.isDigit = true := by
  rw [toList_natural]
  exact Clean.forall_mem_toDigits (by decide) (by decide) n

theorem natural_nonempty (n : Nat) : (natural n).toList ≠ [] := by
  rw [toList_natural]
  exact Nat.toDigits_ne_nil

theorem token_natural : Token Char.isDigit natural :=
  ⟨isDigit_natural, natural_nonempty, natural_injective⟩

def isSigned (c : Char) : Bool := c.isDigit || c == '-'

theorem toList_decimal_negSucc (n : Nat) :
    (decimal (.negSucc n)).toList = '-' :: (natural (n + 1)).toList := String.toList_append

theorem isSigned_decimal (n : Int) : ∀ c ∈ (decimal n).toList, isSigned c = true := by
  have hnatural (n : Nat) : ∀ c ∈ (natural n).toList, isSigned c = true := by
    intro c hc
    rw [isSigned, isDigit_natural n c hc, Bool.true_or]
  cases n with
  | ofNat n => exact hnatural n
  | negSucc n =>
      rw [toList_decimal_negSucc, List.forall_mem_cons]
      exact ⟨rfl, hnatural (n + 1)⟩

theorem natural_ne_negSucc (m n : Nat) : natural m ≠ decimal (.negSucc n) := by
  intro h
  have hmem : '-' ∈ (natural m).toList := by
    rw [h, toList_decimal_negSucc]
    exact List.mem_cons_self
  exact absurd (isDigit_natural m '-' hmem) (by decide)

theorem decimal_injective : Function.Injective decimal := by
  intro m n h
  cases m with
  | ofNat m =>
      cases n with
      | ofNat n => exact congrArg Int.ofNat (natural_injective h)
      | negSucc n => exact absurd h (natural_ne_negSucc m n)
  | negSucc m =>
      cases n with
      | ofNat n => exact absurd h.symm (natural_ne_negSucc n m)
      | negSucc n =>
          have hlists := congrArg String.toList h
          rw [toList_decimal_negSucc, toList_decimal_negSucc, List.cons.injEq] at hlists
          have hmn := natural_injective (String.toList_inj.1 hlists.2)
          rw [Nat.succ.inj hmn]

theorem token_decimal : Token isSigned decimal := by
  refine ⟨isSigned_decimal, ?_, decimal_injective⟩
  intro n
  cases n with
  | ofNat n => exact natural_nonempty n
  | negSucc n =>
      rw [toList_decimal_negSucc]
      exact List.cons_ne_nil _ _

def isIndex (c : Char) : Bool := c.isDigit || c == '#'

theorem toList_indexText (index : UInt16) :
    (indexText index).toList = '#' :: (natural index.toNat).toList := String.toList_append

theorem token_index : Token isIndex indexText := by
  refine ⟨?_, ?_, ?_⟩
  · intro index
    rw [toList_indexText, List.forall_mem_cons]
    refine ⟨rfl, fun c hc => ?_⟩
    rw [isIndex, isDigit_natural _ c hc, Bool.true_or]
  · intro index
    rw [toList_indexText]
    exact List.cons_ne_nil _ _
  · intro m n h
    have hlists := congrArg String.toList h
    rw [toList_indexText, toList_indexText, List.cons.injEq] at hlists
    exact UInt16.toNat_inj.1 (natural_injective (String.toList_inj.1 hlists.2))

end Numeral

theorem isBlank_of_isWord {c : Char} (h : isWord c = true) : isBlank c = false := by
  simp only [isWord, Bool.and_eq_true, decide_eq_true_eq, UInt32.le_iff_toNat_le,
    UInt32.reduceToNat] at h
  simp only [isBlank, blankRanges, List.any_cons, List.any_nil, Bool.or_eq_false_iff,
    Bool.and_eq_false_iff, decide_eq_false_iff_not, UInt32.le_iff_toNat_le, UInt32.reduceToNat, and_true]
  omega

/-- The bytes as one number, which is compared faster than the text. -/
def Opcode.digest (name : String) : Nat :=
  name.toByteArray.data.toList.foldl (fun n b => n * 256 + b.toNat) 0

theorem mnemonics_nodup : mnemonics.toList.Nodup := by
  have hdigests : (mnemonics.toList.map Opcode.digest).Nodup := by decide +kernel
  exact hdigests.of_map _

theorem Opcode.mnemonic_injective : Function.Injective mnemonic := by
  intro a b h
  have hget (op : Opcode) : mnemonics.toList[op.byte.toNat]? = some op.mnemonic := by
    rw [Vector.getElem?_toList, Vector.getElem?_eq_getElem op.assigned]
    rfl
  have hlt : a.byte.toNat < mnemonics.toList.length := by
    rw [Vector.length_toList]
    exact a.assigned
  have hbyte : a.byte.toNat = b.byte.toNat :=
    (List.getElem?_inj hlt mnemonics_nodup).1 (by rw [hget, hget, h])
  cases a
  cases b
  simpa using UInt8.toNat_inj.1 hbyte

theorem Opcode.mnemonic_nonempty (op : Opcode) : op.mnemonic.toList ≠ [] := by
  have hall : ∀ name ∈ mnemonics.toList, name ≠ "" := by decide +kernel
  rw [Ne, String.toList_eq_nil_iff]
  exact hall op.mnemonic (Vector.mem_toList_iff.2 (Vector.getElem_mem op.assigned))

theorem Opcode.token_mnemonic : Token isWord mnemonic :=
  ⟨Clean.isWord_mnemonic, mnemonic_nonempty, mnemonic_injective⟩

theorem ArrayType.token_name : Token isWord name := by
  refine ⟨?_, ?_, ?_⟩
  · intro element
    apply List.all_eq_true.1
    cases element <;> decide
  · intro element
    cases element <;> decide
  · intro a b h
    revert h
    cases a <;> cases b <;> decide

end ClassListing
