import ClassListing.Bytes.Reader
import ClassListing.Proofs.Checks

namespace ClassListing

variable {α β : Type}

def Fault.IsEnd : Fault → Prop
  | .unexpectedEnd _ _ => True
  | _ => False

def NeverEnds (x : Except Fault α) : Prop := ∀ fault, x = .error fault → ¬fault.IsEnd

namespace NeverEnds

theorem ok (a : α) : NeverEnds (.ok a) := by
  intro fault h
  cases h

theorem bind {x : Except Fault α} {f : α → Except Fault β} (hx : NeverEnds x)
    (hf : ∀ a, NeverEnds (f a)) : NeverEnds (x >>= f) := by
  cases x with
  | error fault =>
      intro other h
      exact hx other (by rw [Except.error.inj h])
  | ok a => exact hf a

theorem forM {f : α → Except Fault Unit} (hf : ∀ a, NeverEnds (f a)) (as : List α) :
    NeverEnds (as.forM f) := by
  induction as with
  | nil => exact ok ()
  | cons a as ih => exact (hf a).bind fun _ => ih

theorem error {fault : Fault} (h : ¬fault.IsEnd) : NeverEnds (.error fault : Except Fault α) := by
  intro other hother
  rwa [← Except.error.inj hother]

end NeverEnds

def Cursor.append (c : Cursor) (more : Bytes) : Cursor := ⟨c.pos, c.rest ++ more⟩

namespace Reader

/-- With more input the reader gives the same result and leaves the new bytes, or fails with the
same fault, unless it fails because the input has ended. -/
structure Stable (r : Reader α) : Prop where
  advances : r.Advances
  ok : ∀ {c a c'}, r c = .ok (a, c') → ∀ more, r (c.append more) = .ok (a, c'.append more)
  error : ∀ {c fault}, r c = .error fault → ¬fault.IsEnd → ∀ more, r (c.append more) = .error fault

/-- Where the input ends too early, the fault points into it. -/
structure Incremental (r : Reader α) : Prop extends r.Stable where
  ends : ∀ {c offset needed}, r c = .error (.unexpectedEnd offset needed) →
    offset ≤ c.pos + c.rest.length ∧ 0 < needed

theorem bind_eq_error {r : Reader α} {f : α → Reader β} {c : Cursor} {fault : Fault} :
    (r >>= f) c = .error fault ↔
      r c = .error fault ∨ ∃ a d, r c = .ok (a, d) ∧ f a d = .error fault := by
  simp only [bind, Reader.bind]
  cases h : r c with
  | ok p =>
      obtain ⟨a, d⟩ := p
      simp [and_assoc]
  | error e => simp

theorem Advances.end_eq {r : Reader α} (hr : r.Advances) {c d : Cursor} {a : α}
    (h : r c = .ok (a, d)) : d.pos + d.rest.length = c.pos + c.rest.length := by
  obtain ⟨taken, hrest, hpos⟩ := hr c a d h
  rw [hrest, hpos, List.length_append, Nat.add_assoc]

theorem stable_pure (a : α) : (pure a : Reader α).Stable where
  advances := advances_pure a
  ok h more := by
    obtain ⟨rfl, rfl⟩ := pure_eq_ok.1 h
    rfl
  error h := by cases h

theorem Stable.bind {r : Reader α} {f : α → Reader β} (hr : r.Stable) (hf : ∀ a, (f a).Stable) :
    (r >>= f).Stable where
  advances := hr.advances.bind fun a => (hf a).advances
  ok h more := by
    obtain ⟨a, d, ha, hb⟩ := bind_eq_ok.1 h
    exact bind_eq_ok.2 ⟨a, d.append more, hr.ok ha more, (hf a).ok hb more⟩
  error h hend more := by
    rcases bind_eq_error.1 h with h | ⟨a, d, ha, hb⟩
    · exact bind_eq_error.2 (.inl (hr.error h hend more))
    · exact bind_eq_error.2 (.inr ⟨a, d.append more, hr.ok ha more, (hf a).error hb hend more⟩)

theorem stable_check (outcome : Except Fault α) : (check outcome).Stable where
  advances := advances_check outcome
  ok h more := by
    obtain ⟨ha, rfl⟩ := check_eq_ok.1 h
    exact check_eq_ok.2 ⟨ha, rfl⟩
  error h _ more := by
    cases outcome with
    | ok a => cases h
    | error fault => exact h

theorem incremental_pure (a : α) : (pure a : Reader α).Incremental where
  toStable := stable_pure a
  ends h := by cases h

theorem Incremental.bind {r : Reader α} {f : α → Reader β} (hr : r.Incremental)
    (hf : ∀ a, (f a).Incremental) : (r >>= f).Incremental where
  toStable := hr.toStable.bind fun a => (hf a).toStable
  ends h := by
    rcases bind_eq_error.1 h with h | ⟨a, d, ha, hb⟩
    · exact hr.ends h
    · rw [← hr.advances.end_eq ha]
      exact (hf a).ends hb

theorem incremental_check {outcome : Except Fault α} (h : NeverEnds outcome) :
    (check outcome).Incremental where
  toStable := stable_check outcome
  ends hfault := by
    cases outcome with
    | ok a => cases hfault
    | error fault =>
        obtain rfl := Except.error.inj hfault
        exact absurd trivial (h _ rfl)

theorem incremental_fail {fault : Fault} (h : ¬fault.IsEnd) : (fail fault : Reader α).Incremental where
  advances := advances_fail fault
  ok hok := by cases hok
  error herror _ _ := herror
  ends hends := by
    obtain rfl := Except.error.inj hends
    exact absurd trivial h

theorem take_eq_error {n : Nat} {c : Cursor} {fault : Fault} :
    take n c = .error fault ↔
      c.rest.length < n ∧ fault = .unexpectedEnd c.pos (n - c.rest.length) := by
  simp only [take, List.length_take]
  split
  next h =>
    have hmin : min n c.rest.length = c.rest.length := by omega
    rw [Except.error.injEq, hmin, eq_comm]
    exact ⟨fun hfault => ⟨by omega, hfault⟩, And.right⟩
  next h =>
    simp only [reduceCtorEq, false_iff, not_and]
    omega

theorem incremental_take (n : Nat) : (take n).Incremental where
  advances := advances_take n
  ok h more := by
    obtain ⟨hlen, hrest, hpos⟩ := take_eq_ok.1 h
    exact take_eq_ok.2 ⟨hlen, by simp [Cursor.append, hrest], hpos⟩
  error h hend := by
    obtain ⟨-, rfl⟩ := take_eq_error.1 h
    exact absurd trivial hend
  ends h := by
    obtain ⟨hlt, hfault⟩ := take_eq_error.1 h
    obtain ⟨rfl, rfl⟩ := Fault.unexpectedEnd.inj hfault
    omega

theorem incremental_byte : byte.Incremental :=
  (incremental_take 1).bind fun _ => incremental_pure _

theorem incremental_word16 : word16.Incremental :=
  (incremental_take 2).bind fun _ => incremental_pure _

theorem incremental_word32 : word32.Incremental :=
  (incremental_take 4).bind fun _ => incremental_pure _

theorem incremental_word64 : word64.Incremental :=
  incremental_word32.bind fun _ => incremental_word32.bind fun _ => incremental_pure _

theorem incremental_times {item : Reader α} (h : item.Incremental) (n : Nat) :
    (times n item).Incremental := by
  induction n with
  | zero => exact incremental_pure _
  | succ n ih => exact h.bind fun _ => ih.bind fun _ => incremental_pure _

theorem incremental_counted {item : Reader α} (h : item.Incremental) : (counted item).Incremental :=
  incremental_word16.bind fun count => incremental_times h count.toNat

/-- The reader takes so many bytes, and fails only where there are fewer. -/
structure Takes (r : Reader α) (n : Nat) : Prop where
  ok : ∀ {c a d}, r c = .ok (a, d) → c.rest.length = n + d.rest.length
  ends : ∀ {c fault}, r c = .error fault → c.rest.length < n ∧ fault.IsEnd

theorem takes_pure (a : α) : (pure a : Reader α).Takes 0 where
  ok h := by
    obtain ⟨-, rfl⟩ := pure_eq_ok.1 h
    exact (Nat.zero_add _).symm
  ends h := by cases h

theorem Takes.bind {r : Reader α} {f : α → Reader β} {m n : Nat} (hr : r.Takes m)
    (hf : ∀ a, (f a).Takes n) : (r >>= f).Takes (m + n) where
  ok h := by
    obtain ⟨a, d, ha, hb⟩ := bind_eq_ok.1 h
    rw [hr.ok ha, (hf a).ok hb, Nat.add_assoc]
  ends h := by
    rcases bind_eq_error.1 h with h | ⟨a, d, ha, hb⟩
    · obtain ⟨hlt, hend⟩ := hr.ends h
      exact ⟨Nat.lt_of_lt_of_le hlt (Nat.le_add_right m n), hend⟩
    · obtain ⟨hlt, hend⟩ := (hf a).ends hb
      rw [hr.ok ha]
      exact ⟨Nat.add_lt_add_left hlt m, hend⟩

theorem takes_take (n : Nat) : (take n).Takes n where
  ok h := by
    obtain ⟨hlen, hrest, -⟩ := take_eq_ok.1 h
    rw [hrest, List.length_append, hlen]
  ends h := by
    obtain ⟨hlt, rfl⟩ := take_eq_error.1 h
    exact ⟨hlt, trivial⟩

theorem takes_byte : byte.Takes 1 := (takes_take 1).bind fun _ => takes_pure _

theorem takes_word16 : word16.Takes 2 := (takes_take 2).bind fun _ => takes_pure _

theorem takes_word32 : word32.Takes 4 := (takes_take 4).bind fun _ => takes_pure _

theorem times_eq_error {item : Reader α} {n : Nat} {c : Cursor} {fault : Fault} :
    times n item c = .error fault ↔
      ∃ k < n, ∃ as d, times k item c = .ok (as, d) ∧ item d = .error fault := by
  induction n generalizing c with
  | zero =>
      constructor
      · intro h
        cases h
      · rintro ⟨k, hk, -⟩
        exact absurd hk (Nat.not_lt_zero k)
  | succ n ih =>
      constructor
      · intro h
        rcases bind_eq_error.1 h with h | ⟨a, d, ha, h⟩
        · exact ⟨0, Nat.zero_lt_succ n, [], c, rfl, h⟩
        · rcases bind_eq_error.1 h with h | ⟨as, e, -, h⟩
          · obtain ⟨k, hk, as, e, has, he⟩ := ih.1 h
            refine ⟨k + 1, Nat.succ_lt_succ hk, a :: as, e, ?_, he⟩
            exact bind_eq_ok.2 ⟨a, d, ha, bind_eq_ok.2 ⟨as, e, has, rfl⟩⟩
          · cases h
      · rintro ⟨k, hk, as, d, has, hd⟩
        cases k with
        | zero =>
            obtain ⟨-, rfl⟩ := pure_eq_ok.1 has
            exact bind_eq_error.2 (.inl hd)
        | succ k =>
            obtain ⟨a, e, ha, hafter⟩ := bind_eq_ok.1 has
            obtain ⟨others, e', hothers, hcons⟩ := bind_eq_ok.1 hafter
            obtain ⟨-, rfl⟩ := pure_eq_ok.1 hcons
            have hrest := ih.2 ⟨k, Nat.lt_of_succ_lt_succ hk, others, e', hothers, hd⟩
            exact bind_eq_error.2 (.inr ⟨a, e, ha, bind_eq_error.2 (.inl hrest)⟩)

end Reader

end ClassListing
