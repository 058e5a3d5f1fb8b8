import ClassListing.Bytes.Reader
import Mathlib.Algebra.Ring.Nat
import Mathlib.Data.List.Induction
import Mathlib.Data.Set.Basic

namespace ClassListing

namespace Layout

def number : Nat → Nat → Bytes
  | 0, _ => []
  | width + 1, n => number width (n / 256) ++ [n.toUInt8]

@[simp]
theorem length_number (width n : Nat) : (number width n).length = width := by
  induction width generalizing n with
  | zero => rfl
  | succ width ih => simp [number, ih]

theorem number_add (j k n : Nat) : number (j + k) n = number j (n / 256 ^ k) ++ number k n := by
  induction k generalizing n with
  | zero => simp [number]
  | succ k ih =>
      rw [← Nat.add_assoc, number, number, ih, List.append_assoc, Nat.div_div_eq_div_mul,
        Nat.pow_succ, Nat.mul_comm (256 ^ k)]

theorem number_mod (width n : Nat) : number width (n % 256 ^ width) = number width n := by
  induction width generalizing n with
  | zero => rfl
  | succ width ih =>
      have hdiv : n % 256 ^ (width + 1) / 256 = n / 256 % 256 ^ width := by
        rw [Nat.pow_succ, Nat.mul_comm, Nat.mod_mul_right_div_self]
      have hlast : (n % 256 ^ (width + 1)).toUInt8 = n.toUInt8 := by
        apply UInt8.toNat_inj.1
        rw [Nat.toUInt8_eq, Nat.toUInt8_eq, UInt8.toNat_ofNat', UInt8.toNat_ofNat',
          Nat.mod_mod_of_dvd _ ⟨256 ^ width, by rw [Nat.pow_succ, Nat.mul_comm]⟩]
      rw [number, number, hdiv, ih, hlast]

/-- The one spelling of a value, if the value is as it should be. -/
def only {α : Type} (P : α → Prop) (spell : α → Bytes) (a : α) : Set Bytes :=
  {bytes | P a ∧ bytes = spell a}

def concat {α : Type} (L : α → Set Bytes) : List α → Set Bytes
  | [] => {[]}
  | a :: as => {bytes | ∃ s ∈ L a, ∃ t ∈ concat L as, bytes = s ++ t}

def counted {α : Type} (L : α → Set Bytes) (as : List α) : Set Bytes :=
  {bytes | as.length < 65536 ∧ ∃ t ∈ concat L as, bytes = number 2 as.length ++ t}

end Layout

namespace Reader

open Layout

variable {α β : Type}

theorem bigEndian_append_singleton (bytes : Bytes) (b : UInt8) :
    bigEndian (bytes ++ [b]) = bigEndian bytes * 256 + b.toNat := by
  simp [bigEndian]

theorem bigEndian_number {width n : Nat} (h : n < 256 ^ width) : bigEndian (number width n) = n := by
  induction width generalizing n with
  | zero =>
      rw [Nat.pow_zero, Nat.lt_one_iff] at h
      rw [h]
      rfl
  | succ width ih =>
      have hdiv : n / 256 < 256 ^ width := by
        rw [Nat.div_lt_iff_lt_mul (by decide), ← Nat.pow_succ]
        exact h
      rw [number, bigEndian_append_singleton, ih hdiv, Nat.toUInt8_eq, UInt8.toNat_ofNat']
      omega

theorem number_bigEndian (bytes : Bytes) : number bytes.length (bigEndian bytes) = bytes := by
  induction bytes using List.reverseRecOn with
  | nil => rfl
  | append_singleton bytes b ih =>
      have hb := b.toNat_lt
      have hdiv : (bigEndian bytes * 256 + b.toNat) / 256 = bigEndian bytes := by omega
      have hlast : (bigEndian bytes * 256 + b.toNat).toUInt8 = b := by
        apply UInt8.toNat_inj.1
        rw [Nat.toUInt8_eq, UInt8.toNat_ofNat']
        omega
      rw [List.length_append, List.length_singleton, number, bigEndian_append_singleton, hdiv, hlast,
        ih]

theorem bigEndian_lt (bytes : Bytes) : bigEndian bytes < 256 ^ bytes.length := by
  induction bytes using List.reverseRecOn with
  | nil => decide
  | append_singleton bytes b ih =>
      have hb := b.toNat_lt
      rw [bigEndian_append_singleton, List.length_append, List.length_singleton, Nat.pow_succ]
      omega

/-- The reader succeeds exactly on the spellings of a layout, and leaves what follows them. -/
def Reads (r : Reader α) (L : α → Set Bytes) : Prop :=
  ∀ c a c', r c = .ok (a, c') ↔
    ∃ bytes ∈ L a, c.rest = bytes ++ c'.rest ∧ c'.pos = c.pos + bytes.length

theorem Reads.congr {r : Reader α} {L M : α → Set Bytes} (hr : r.Reads L)
    (h : ∀ a bytes, bytes ∈ L a ↔ bytes ∈ M a) : r.Reads M := by
  have hLM : L = M := funext fun a => Set.ext (h a)
  exact hLM ▸ hr

theorem reads_pure (a : α) : (pure a : Reader α).Reads fun b => {bytes | a = b ∧ bytes = []} := by
  intro c b c'
  rw [pure_eq_ok]
  constructor
  · rintro ⟨rfl, rfl⟩
    exact ⟨[], ⟨rfl, rfl⟩, by simp⟩
  · rintro ⟨-, ⟨rfl, rfl⟩, hrest, hpos⟩
    exact ⟨rfl, by cases c; cases c'; simp_all⟩

theorem reads_check (outcome : Except Fault α) :
    (check outcome).Reads fun a => {bytes | outcome = .ok a ∧ bytes = []} := by
  intro c a c'
  rw [check_eq_ok]
  constructor
  · rintro ⟨ha, rfl⟩
    exact ⟨[], ⟨ha, rfl⟩, by simp⟩
  · rintro ⟨-, ⟨ha, rfl⟩, hrest, hpos⟩
    exact ⟨ha, by cases c; cases c'; simp_all⟩

theorem reads_fail (fault : Fault) : (fail fault : Reader α).Reads fun _ => ∅ := by
  intro c a c'
  simp [fail]

/-- What follows a value has to be read for the values that have a spelling. -/
theorem Reads.bindOn {r : Reader α} {f : α → Reader β} {L : α → Set Bytes}
    {M : α → β → Set Bytes} (hr : r.Reads L) (hf : ∀ a, (L a).Nonempty → (f a).Reads (M a)) :
    (r >>= f).Reads fun b => {bytes | ∃ a, ∃ s ∈ L a, ∃ t ∈ M a b, bytes = s ++ t} := by
  intro c b c'
  rw [bind_eq_ok]
  constructor
  · rintro ⟨a, d, ha, hb⟩
    obtain ⟨s, hs, hrest, hpos⟩ := (hr c a d).1 ha
    obtain ⟨t, ht, hrest', hpos'⟩ := (hf a ⟨s, hs⟩ d b c').1 hb
    refine ⟨s ++ t, ⟨a, s, hs, t, ht, rfl⟩, ?_, ?_⟩
    · rw [hrest, hrest', List.append_assoc]
    · rw [hpos', hpos, List.length_append, Nat.add_assoc]
  · rintro ⟨-, ⟨a, s, hs, t, ht, rfl⟩, hrest, hpos⟩
    refine ⟨a, ⟨c.pos + s.length, t ++ c'.rest⟩, ?_, ?_⟩
    · exact (hr _ _ _).2 ⟨s, hs, by rw [hrest, List.append_assoc], rfl⟩
    · exact (hf _ ⟨s, hs⟩ _ _ _).2 ⟨t, ht, rfl, by rw [hpos, List.length_append, Nat.add_assoc]⟩

theorem Reads.bind {r : Reader α} {f : α → Reader β} {L : α → Set Bytes}
    {M : α → β → Set Bytes} (hr : r.Reads L) (hf : ∀ a, (f a).Reads (M a)) :
    (r >>= f).Reads fun b => {bytes | ∃ a, ∃ s ∈ L a, ∃ t ∈ M a b, bytes = s ++ t} :=
  hr.bindOn fun a _ => hf a

theorem Reads.map {r : Reader α} {L : α → Set Bytes} (hr : r.Reads L) (f : α → β) :
    (do return f (← r) : Reader β).Reads fun b => {bytes | ∃ a, f a = b ∧ bytes ∈ L a} := by
  refine (hr.bind fun a => reads_pure (f a)).congr fun b bytes => ?_
  constructor
  · rintro ⟨a, s, hs, t, ⟨hb, rfl⟩, rfl⟩
    rw [List.append_nil]
    exact ⟨a, hb, hs⟩
  · rintro ⟨a, hb, hs⟩
    exact ⟨a, bytes, hs, [], ⟨hb, rfl⟩, (List.append_nil _).symm⟩

theorem Reads.map₂ {γ : Type} {r : Reader α} {s : Reader β} {L : α → Bytes} {M : β → Bytes}
    (hr : r.Reads fun a => {L a}) (hs : s.Reads fun b => {M b}) (f : α → β → γ) :
    (do return f (← r) (← s) : Reader γ).Reads
      fun c => {bytes | ∃ p : α × β, f p.1 p.2 = c ∧ bytes ∈ ({L p.1 ++ M p.2} : Set Bytes)} := by
  refine (hr.bind fun a => hs.map (f a)).congr fun c bytes => ?_
  constructor
  · rintro ⟨a, s, rfl, t, ⟨b, hc, rfl⟩, rfl⟩
    exact ⟨(a, b), hc, rfl⟩
  · rintro ⟨⟨a, b⟩, hc, rfl⟩
    exact ⟨a, _, rfl, M b, ⟨b, hc, rfl⟩, rfl⟩

/-- One more field of a row, of which `G` has fixed the fields before. -/
theorem Reads.field {r : Reader α} {f : α → Reader β} {P : α → Prop} {L : α → Bytes}
    {G Q : β → Prop} {M : β → Bytes} (hr : r.Reads (only P L)) (field : β → α)
    (hf : ∀ a, (f a).Reads (only (fun b => (G b ∧ field b = a) ∧ Q b) M)) :
    (r >>= f).Reads (only (fun b => G b ∧ P (field b) ∧ Q b) fun b => L (field b) ++ M b) := by
  refine (hr.bind hf).congr fun b bytes => ?_
  constructor
  · rintro ⟨_, _, ⟨ha, rfl⟩, _, ⟨⟨⟨hg, rfl⟩, hq⟩, rfl⟩, rfl⟩
    exact ⟨⟨hg, ha, hq⟩, rfl⟩
  · rintro ⟨⟨hg, ha, hq⟩, rfl⟩
    exact ⟨field b, _, ⟨ha, rfl⟩, _, ⟨⟨⟨hg, rfl⟩, hq⟩, rfl⟩, rfl⟩

theorem reads_made {b : β} {G : β → Prop} (h : ∀ x, G x ↔ b = x) :
    (pure b : Reader β).Reads (only (fun x => G x ∧ True) fun _ => []) := by
  refine (reads_pure b).congr fun x bytes => ?_
  constructor
  · rintro ⟨hx, rfl⟩
    exact ⟨⟨(h x).2 hx, trivial⟩, rfl⟩
  · rintro ⟨⟨hx, -⟩, rfl⟩
    exact ⟨(h x).1 hx, rfl⟩

theorem Reads.row {r : Reader α} {P Q : α → Prop} {L M : α → Bytes}
    (hr : r.Reads (only (fun a => True ∧ Q a) M)) (hP : ∀ a, Q a ↔ P a) (hL : ∀ a, M a = L a) :
    r.Reads (only P L) := by
  refine hr.congr fun a bytes => ?_
  rw [only, only, hP, hL, true_and]

theorem reads_take (n : Nat) :
    (take n).Reads fun bytes => {spelled | spelled = bytes ∧ bytes.length = n} := by
  intro c bytes c'
  rw [take_eq_ok]
  constructor
  · rintro ⟨hlen, hrest, hpos⟩
    exact ⟨bytes, ⟨rfl, hlen⟩, hrest, by rw [hpos, hlen]⟩
  · rintro ⟨s, ⟨rfl, hlen⟩, hrest, hpos⟩
    exact ⟨hlen, hrest, by rw [hpos, hlen]⟩

theorem reads_number {width : Nat} {ofNat : Nat → α} {toNat : α → Nat}
    (hlt : ∀ a, toNat a < 256 ^ width) (hof : ∀ a, ofNat (toNat a) = a)
    (hto : ∀ n < 256 ^ width, toNat (ofNat n) = n) :
    (do return ofNat (bigEndian (← take width)) : Reader α).Reads
      fun a => {number width (toNat a)} := by
  refine ((reads_take width).bind fun bytes => reads_pure _).congr fun a spelled => ?_
  constructor
  · rintro ⟨bytes, s, ⟨rfl, hlen⟩, t, ⟨rfl, rfl⟩, rfl⟩
    have hbytes := number_bigEndian s
    rw [hlen] at hbytes
    rw [hto _ (by rw [← hlen]; exact bigEndian_lt s), hbytes, List.append_nil]
    rfl
  · rintro rfl
    refine ⟨_, _, ⟨rfl, length_number _ _⟩, [], ⟨?_, rfl⟩, (List.append_nil _).symm⟩
    rw [bigEndian_number (hlt a), hof]

theorem reads_byte : byte.Reads fun b => {[b]} := by
  have h : byte.Reads fun b => {number 1 b.toNat} :=
    reads_number (fun b => b.toNat_lt) (fun b => UInt8.ofNat_toNat)
      fun n hn => UInt8.toNat_ofNat_of_lt hn
  refine h.congr fun b bytes => ?_
  simp [number]

theorem reads_word16 : word16.Reads fun w => {number 2 w.toNat} :=
  reads_number (fun w => w.toNat_lt) (fun _ => UInt16.ofNat_toNat)
    fun _ hn => UInt16.toNat_ofNat_of_lt hn

theorem reads_word32 : word32.Reads fun w => {number 4 w.toNat} :=
  reads_number (fun w => w.toNat_lt) (fun _ => UInt32.ofNat_toNat)
    fun _ hn => UInt32.toNat_ofNat_of_lt hn

theorem toNat_joinWords (high low : UInt32) :
    ((high.toUInt64 <<< 32) ||| low.toUInt64).toNat = high.toNat * 256 ^ 4 + low.toNat := by
  have hh := high.toNat_lt
  have hl := low.toNat_lt
  have h := Nat.shiftLeft_add_eq_or_of_lt (i := 32) (b := low.toNat) (by omega) high.toNat
  simp only [UInt64.toNat_or, UInt64.toNat_shiftLeft, UInt32.toNat_toUInt64, UInt64.reduceToNat,
    Nat.reduceMod]
  rw [Nat.mod_eq_of_lt (by rw [Nat.shiftLeft_eq]; omega), ← h]
  exact congrArg (· + low.toNat) (Nat.shiftLeft_eq _ _)

theorem reads_word64 : word64.Reads fun w => {number 8 w.toNat} := by
  refine (reads_word32.bind fun high => reads_word32.bind fun low => reads_pure _).congr
    fun w bytes => ?_
  constructor
  · rintro ⟨high, s, rfl, t, ⟨low, u, rfl, v, ⟨rfl, rfl⟩, rfl⟩, rfl⟩
    have hlow := low.toNat_lt
    have hdiv : (high.toNat * 256 ^ 4 + low.toNat) / 256 ^ 4 = high.toNat := by omega
    have hmod : (high.toNat * 256 ^ 4 + low.toNat) % 256 ^ 4 = low.toNat := by omega
    rw [toNat_joinWords, number_add 4 4, hdiv, ← number_mod 4 (_ + _), hmod, List.append_nil]
    rfl
  · rintro rfl
    have hw := w.toNat_lt
    have hhigh : (w.toNat / 256 ^ 4).toUInt32.toNat = w.toNat / 256 ^ 4 :=
      UInt32.toNat_ofNat_of_lt (by rw [UInt32.size]; omega)
    have hlow : (w.toNat % 256 ^ 4).toUInt32.toNat = w.toNat % 256 ^ 4 :=
      UInt32.toNat_ofNat_of_lt (by rw [UInt32.size]; omega)
    refine ⟨(w.toNat / 256 ^ 4).toUInt32, _, rfl, _,
      ⟨(w.toNat % 256 ^ 4).toUInt32, _, rfl, [], ⟨?_, rfl⟩, (List.append_nil _).symm⟩, ?_⟩
    · apply UInt64.toNat_inj.1
      rw [toNat_joinWords, hhigh, hlow]
      omega
    · rw [number_add 4 4, hhigh, hlow, number_mod]

theorem reads_times {item : Reader α} {L : α → Set Bytes} (h : item.Reads L) (n : Nat) :
    (times n item).Reads fun as => {bytes | as.length = n ∧ bytes ∈ concat L as} := by
  induction n with
  | zero =>
      refine (reads_pure []).congr fun as bytes => ?_
      cases as with
      | nil => exact ⟨fun h => ⟨rfl, h.2⟩, fun h => ⟨rfl, h.2⟩⟩
      | cons a as => simp
  | succ n ih =>
      refine (h.bind fun a => ih.bind fun as => reads_pure (a :: as)).congr fun as bytes => ?_
      cases as with
      | nil => simp
      | cons a as =>
          constructor
          · rintro ⟨_, s, hs, _, ⟨_, t, ⟨hlen, ht⟩, _, ⟨heq, rfl⟩, rfl⟩, rfl⟩
            obtain ⟨rfl, rfl⟩ := List.cons.inj heq
            exact ⟨congrArg (· + 1) hlen, s, hs, t, ht, by rw [List.append_nil]⟩
          · rintro ⟨hlen, s, hs, t, ht, rfl⟩
            exact ⟨a, s, hs, t, ⟨as, t, ⟨Nat.succ.inj hlen, ht⟩, [], ⟨rfl, rfl⟩, by simp⟩, rfl⟩

theorem reads_counted {item : Reader α} {L : α → Set Bytes} (h : item.Reads L) :
    (Reader.counted item).Reads (Layout.counted L) := by
  refine (reads_word16.bind fun count => reads_times h count.toNat).congr fun as bytes => ?_
  constructor
  · rintro ⟨count, _, rfl, t, ⟨hlen, ht⟩, rfl⟩
    exact ⟨by rw [hlen]; exact count.toNat_lt, t, ht, by rw [hlen]⟩
  · rintro ⟨hlen, t, ht, rfl⟩
    have hcount : as.length.toUInt16.toNat = as.length := UInt16.toNat_ofNat_of_lt hlen
    exact ⟨as.length.toUInt16, _, rfl, t, ⟨hcount.symm, ht⟩, by rw [hcount]⟩

/-- On the whole of its input, a reader that has to use it up. -/
theorem Reads.whole {r : Reader α} {L : α → Set Bytes} (h : r.Reads L) (a : α) (bytes : Bytes) :
    (∃ c, r (.start bytes) = .ok (a, c) ∧ c.rest = []) ↔ bytes ∈ L a := by
  constructor
  · rintro ⟨c, hc, hrest⟩
    obtain ⟨s, hs, hs', -⟩ := (h _ _ _).1 hc
    rw [hrest, List.append_nil] at hs'
    rw [show bytes = s from hs']
    exact hs
  · intro hb
    exact ⟨⟨bytes.length, []⟩, (h _ _ _).2 ⟨bytes, hb, by simp [Cursor.start]⟩, rfl⟩

end Reader

end ClassListing
