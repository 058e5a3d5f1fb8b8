import ClassListing.Fault

namespace ClassListing

abbrev Bytes := List UInt8

structure Cursor where
  pos : Nat
  rest : Bytes
  deriving DecidableEq, Repr

def Cursor.start (bytes : Bytes) : Cursor := ⟨0, bytes⟩

def Reader (α : Type) := Cursor → Except Fault (α × Cursor)

namespace Reader

variable {α β : Type}

@[always_inline, inline]
protected def pure (a : α) : Reader α := fun c => .ok (a, c)

@[always_inline, inline]
protected def bind (r : Reader α) (f : α → Reader β) : Reader β := fun c =>
  match r c with
  | .ok (a, c') => f a c'
  | .error fault => .error fault

@[always_inline]
instance : Monad Reader where
  pure := Reader.pure
  bind := Reader.bind

@[always_inline, inline]
def check (outcome : Except Fault α) : Reader α := fun c =>
  match outcome with
  | .ok a => .ok (a, c)
  | .error fault => .error fault

def fail (fault : Fault) : Reader α := fun _ => .error fault

def take (n : Nat) : Reader Bytes := fun c =>
  let taken := c.rest.take n
  if taken.length < n then .error (.unexpectedEnd c.pos (n - taken.length))
  else .ok (taken, ⟨c.pos + n, c.rest.drop n⟩)

def align (n : Nat) : Reader Unit := fun c =>
  (do let _ ← take ((n - c.pos % n) % n) : Reader Unit) c

def bigEndian (bytes : Bytes) : Nat :=
  bytes.foldl (fun n b => n * 256 + b.toNat) 0

def byte : Reader UInt8 := do return (bigEndian (← take 1)).toUInt8

def word16 : Reader UInt16 := do return (bigEndian (← take 2)).toUInt16

def word32 : Reader UInt32 := do return (bigEndian (← take 4)).toUInt32

/-- Two words of 32 bits, so that a short input is reported at the word it cuts. -/
def word64 : Reader UInt64 := do
  let high ← word32
  let low ← word32
  return (high.toUInt64 <<< 32) ||| low.toUInt64

def times (n : Nat) (item : Reader α) : Reader (List α) :=
  match n with
  | 0 => pure []
  | n + 1 => do
    let a ← item
    let as ← times n item
    return a :: as

def counted (item : Reader α) : Reader (List α) := do
  let count ← word16
  times count.toNat item

theorem pure_eq_ok {a b : α} {c c' : Cursor} :
    (pure a : Reader α) c = .ok (b, c') ↔ a = b ∧ c = c' := by
  simp [pure, Reader.pure]

theorem check_eq_ok {outcome : Except Fault α} {a : α} {c c' : Cursor} :
    check outcome c = .ok (a, c') ↔ outcome = .ok a ∧ c = c' := by
  cases outcome <;> simp [check]

theorem bind_eq_ok {r : Reader α} {f : α → Reader β} {c : Cursor} {b : β} {c' : Cursor} :
    (r >>= f) c = .ok (b, c') ↔ ∃ a d, r c = .ok (a, d) ∧ f a d = .ok (b, c') := by
  simp only [bind, Reader.bind]
  cases h : r c with
  | ok p => obtain ⟨a, d⟩ := p; simp [and_assoc]
  | error e => simp

theorem take_eq_ok {n : Nat} {c : Cursor} {bytes : Bytes} {c' : Cursor} :
    take n c = .ok (bytes, c') ↔
      bytes.length = n ∧ c.rest = bytes ++ c'.rest ∧ c'.pos = c.pos + n := by
  obtain ⟨pos, rest⟩ := c
  obtain ⟨pos', rest'⟩ := c'
  simp only [take, List.length_take]
  split
  · rename_i h
    simp only [reduceCtorEq, false_iff, not_and]
    rintro hb rfl
    simp only [List.length_append] at h
    omega
  · rename_i h
    simp only [Except.ok.injEq, Prod.mk.injEq, Cursor.mk.injEq]
    constructor
    · rintro ⟨rfl, rfl, rfl⟩
      exact ⟨by simp only [List.length_take]; omega, by simp, rfl⟩
    · rintro ⟨rfl, rfl, rfl⟩
      simp

theorem length_of_word16 {c : Cursor} {w : UInt16} {c' : Cursor} (h : word16 c = .ok (w, c')) :
    c.rest.length = 2 + c'.rest.length := by
  obtain ⟨bytes, d, hd, hw⟩ := bind_eq_ok.1 h
  obtain ⟨-, rfl⟩ := pure_eq_ok.1 hw
  obtain ⟨hlen, hrest, -⟩ := take_eq_ok.1 hd
  simp [hrest, hlen]

theorem length_of_word32 {c : Cursor} {w : UInt32} {c' : Cursor} (h : word32 c = .ok (w, c')) :
    c.rest.length = 4 + c'.rest.length := by
  obtain ⟨bytes, d, hd, hw⟩ := bind_eq_ok.1 h
  obtain ⟨-, rfl⟩ := pure_eq_ok.1 hw
  obtain ⟨hlen, hrest, -⟩ := take_eq_ok.1 hd
  simp [hrest, hlen]

/-- The reader hands back a tail of its input, and its position keeps count. -/
def Advances (r : Reader α) : Prop :=
  ∀ c a c', r c = .ok (a, c') → ∃ taken, c.rest = taken ++ c'.rest ∧ c'.pos = c.pos + taken.length

theorem Advances.length_le {r : Reader α} (hr : r.Advances) {c : Cursor} {a : α} {c' : Cursor}
    (h : r c = .ok (a, c')) : c'.rest.length ≤ c.rest.length := by
  obtain ⟨taken, hrest, -⟩ := hr c a c' h
  simp [hrest]

theorem advances_pure (a : α) : (pure a : Reader α).Advances := by
  intro c b c' h
  obtain ⟨rfl, rfl⟩ := pure_eq_ok.1 h
  exact ⟨[], by simp⟩

theorem Advances.bind {r : Reader α} {f : α → Reader β} (hr : r.Advances)
    (hf : ∀ a, (f a).Advances) : (r >>= f).Advances := by
  intro c b c' h
  obtain ⟨a, d, hd, hb⟩ := bind_eq_ok.1 h
  obtain ⟨s, hs, hps⟩ := hr c a d hd
  obtain ⟨t, ht, hpt⟩ := hf a d b c' hb
  exact ⟨s ++ t, by simp [hs, ht], by simp [hps, hpt, Nat.add_assoc]⟩

theorem advances_check (outcome : Except Fault α) : (check outcome).Advances := by
  intro c b c' h
  obtain ⟨-, rfl⟩ := check_eq_ok.1 h
  exact ⟨[], by simp⟩

theorem advances_fail (fault : Fault) : (fail fault : Reader α).Advances := by
  intro c a c' h
  simp [fail] at h

theorem advances_take (n : Nat) : (take n).Advances := by
  intro c bytes c' h
  obtain ⟨rfl, hrest, hpos⟩ := take_eq_ok.1 h
  exact ⟨bytes, hrest, hpos⟩

theorem advances_align (n : Nat) : (align n).Advances := by
  intro c a c' h
  exact ((advances_take _).bind fun _ => advances_pure _) c a c' h

theorem advances_byte : byte.Advances :=
  (advances_take 1).bind fun _ => advances_pure _

theorem advances_word16 : word16.Advances :=
  (advances_take 2).bind fun _ => advances_pure _

theorem advances_word32 : word32.Advances :=
  (advances_take 4).bind fun _ => advances_pure _

theorem advances_times {item : Reader α} (h : item.Advances) (n : Nat) :
    (times n item).Advances := by
  induction n with
  | zero => exact advances_pure _
  | succ n ih => exact h.bind fun _ => ih.bind fun _ => advances_pure _

theorem advances_counted {item : Reader α} (h : item.Advances) : (counted item).Advances :=
  advances_word16.bind fun count => advances_times h count.toNat

end Reader

end ClassListing
