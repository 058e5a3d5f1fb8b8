import Mathlib.Data.List.Forall2

namespace ClassListing

variable {ε α β : Type}

def Succeeds (x : Except ε α) : Prop := ∃ a, x = .ok a

namespace Checks

def error? : Except ε α → Option ε
  | .error e => some e
  | .ok _ => none

theorem error?_eq_some {x : Except ε α} {e : ε} : error? x = some e ↔ x = .error e := by
  cases x with
  | error e' => simp [error?]
  | ok a => simp [error?]

@[simp]
theorem pure_eq_ok {a b : α} : (pure a : Except ε α) = .ok b ↔ a = b := by
  simp [pure, Except.pure]

@[simp]
theorem bind_eq_ok {x : Except ε α} {f : α → Except ε β} {b : β} :
    (x >>= f) = .ok b ↔ ∃ a, x = .ok a ∧ f a = .ok b := by
  cases x with
  | error e => simp [bind, Except.bind]
  | ok a => simp [bind, Except.bind]

theorem bind_eq_error {x : Except ε α} {f : α → Except ε β} {e : ε} :
    (x >>= f) = .error e ↔ x = .error e ∨ ∃ a, x = .ok a ∧ f a = .error e := by
  cases x with
  | error e' => simp [bind, Except.bind]
  | ok a => simp [bind, Except.bind]

theorem map_eq_error {x : Except ε α} {g : α → β} {e : ε} :
    (do return g (← x)) = .error e ↔ x = .error e := by
  cases x with
  | error e' => simp [bind, Except.bind]
  | ok a => simp [bind, Except.bind, pure, Except.pure]

theorem succeeds_map {x : Except ε α} {g : α → β} : Succeeds (do return g (← x)) ↔ Succeeds x := by
  cases x with
  | error e => simp [Succeeds, bind, Except.bind]
  | ok a => simp [Succeeds, bind, Except.bind, pure, Except.pure]

theorem map₂_eq_error {γ : Type} {x : Except ε α} {y : Except ε β} {g : α → β → γ} {e : ε} :
    (do return g (← x) (← y)) = .error e ↔ x = .error e ∨ Succeeds x ∧ y = .error e := by
  cases x with
  | error e' => simp [bind, Except.bind, Succeeds]
  | ok a =>
      change (do return g a (← y)) = .error e ↔ _
      rw [map_eq_error]
      simp [Succeeds]

theorem then_eq_ok {x : Except ε α} {y : Except ε β} {b : β} :
    (do let _ ← x; y) = .ok b ↔ Succeeds x ∧ y = .ok b := by
  rw [bind_eq_ok, exists_and_right, Succeeds]

theorem then_eq_error {x : Except ε α} {y : Except ε β} {e : ε} :
    (do let _ ← x; y) = .error e ↔ x = .error e ∨ Succeeds x ∧ y = .error e := by
  rw [bind_eq_error, exists_and_right, Succeeds]

theorem discard_eq_ok {x : Except ε α} : (do let _ ← x; return ()) = .ok () ↔ Succeeds x :=
  then_eq_ok.trans (and_iff_left rfl)

theorem succeeds_unit {x : Except ε Unit} : Succeeds x ↔ x = .ok () := by
  constructor
  · rintro ⟨⟨⟩, h⟩
    exact h
  · intro h
    exact ⟨(), h⟩

theorem forM_eq_ok {f : α → Except ε Unit} {as : List α} :
    as.forM f = .ok () ↔ ∀ a ∈ as, f a = .ok () := by
  induction as with
  | nil => simp [List.forM_nil]
  | cons a as ih =>
      change (f a >>= fun _ => as.forM f) = .ok () ↔ _
      rw [bind_eq_ok, List.forall_mem_cons, ← ih]
      constructor
      · rintro ⟨⟨⟩, ha, has⟩
        exact ⟨ha, has⟩
      · rintro ⟨ha, has⟩
        exact ⟨(), ha, has⟩

theorem mapM_eq_ok {f : α → Except ε β} {as : List α} {bs : List β} :
    as.mapM f = .ok bs ↔ List.Forall₂ (fun a b => f a = .ok b) as bs := by
  induction as generalizing bs with
  | nil => cases bs <;> simp
  | cons a as ih =>
      rw [List.mapM_cons, bind_eq_ok]
      constructor
      · rintro ⟨b, hb, h⟩
        obtain ⟨cs, hcs, h⟩ := bind_eq_ok.1 h
        rw [pure_eq_ok] at h
        exact h ▸ .cons hb (ih.1 hcs)
      · rintro (_ | ⟨hb, hbs⟩)
        exact ⟨_, hb, bind_eq_ok.2 ⟨_, ih.2 hbs, rfl⟩⟩

/-- The first of the elements on which `f` fails is one where it ends in this error. What it would
do on the elements after that one does not matter. -/
inductive FirstFailure (f : α → Except ε β) (e : ε) : List α → Prop
  | here {a : α} {as : List α} (h : f a = .error e) : FirstFailure f e (a :: as)
  | later {a : α} {as : List α} (h : Succeeds (f a)) (hs : FirstFailure f e as) :
      FirstFailure f e (a :: as)

theorem not_firstFailure_nil {f : α → Except ε β} {e : ε} : ¬FirstFailure f e [] := by
  intro h
  cases h

theorem firstFailure_cons {f : α → Except ε β} {e : ε} {a : α} {as : List α} :
    FirstFailure f e (a :: as) ↔ f a = .error e ∨ Succeeds (f a) ∧ FirstFailure f e as := by
  constructor
  · intro h
    cases h with
    | here h => exact .inl h
    | later h hs => exact .inr ⟨h, hs⟩
  · rintro (h | ⟨h, hs⟩)
    · exact .here h
    · exact .later h hs

theorem forM_eq_error {f : α → Except ε Unit} {as : List α} {e : ε} :
    as.forM f = .error e ↔ FirstFailure f e as := by
  induction as with
  | nil =>
      refine iff_of_false ?_ not_firstFailure_nil
      intro h
      cases h
  | cons a as ih =>
      rw [firstFailure_cons, ← ih]
      exact then_eq_error

theorem mapM_eq_error {f : α → Except ε β} {as : List α} {e : ε} :
    as.mapM f = .error e ↔ FirstFailure f e as := by
  induction as with
  | nil =>
      refine iff_of_false ?_ not_firstFailure_nil
      intro h
      cases h
  | cons a as ih =>
      rw [firstFailure_cons, ← ih, List.mapM_cons]
      exact map₂_eq_error

/-- In a list that ascends strictly, the first failure is the least one. -/
theorem firstFailure_iff_least {R : α → α → Prop} (hR : ∀ a b, R a b → ¬R b a)
    {f : α → Except ε β} {e : ε} {as : List α} (has : as.Pairwise R) :
    FirstFailure f e as ↔ ∃ a ∈ as, f a = .error e ∧ ∀ b ∈ as, R b a → Succeeds (f b) := by
  induction as with
  | nil => simp [not_firstFailure_nil]
  | cons first as ih =>
      obtain ⟨hfirst, has⟩ := List.pairwise_cons.1 has
      rw [firstFailure_cons, ih has]
      constructor
      · rintro (h | ⟨h, a, ha, hfail, hbefore⟩)
        · refine ⟨first, List.mem_cons_self, h, fun b hb hlt => ?_⟩
          rcases List.mem_cons.1 hb with rfl | hb
          · exact absurd hlt (hR _ _ hlt)
          · exact absurd hlt (hR _ _ (hfirst b hb))
        · refine ⟨a, List.mem_cons_of_mem _ ha, hfail, fun b hb hlt => ?_⟩
          rcases List.mem_cons.1 hb with rfl | hb
          · exact h
          · exact hbefore b hb hlt
      · rintro ⟨a, ha, hfail, hbefore⟩
        rcases List.mem_cons.1 ha with rfl | ha
        · exact .inl hfail
        · refine .inr ⟨hbefore _ List.mem_cons_self (hfirst a ha), a, ha, hfail, ?_⟩
          intro b hb
          exact hbefore b (List.mem_cons_of_mem _ hb)

end Checks

end ClassListing
