/-!
# Computations that may fail

An `Attempt` reads and changes a state. When it fails there is a state as well, the one in which it
failed: nothing is undone.
-/

namespace Tariff

abbrev Attempt (ε σ : Type) : Type → Type := ExceptT ε (StateM σ)

namespace Attempt

variable {ε σ α β : Type} {s s' mid : σ} {e : ε}

section Bind

variable {x : Attempt ε σ α}

theorem bind_of_ok {a : α} (h : x s = (.ok a, s')) (f : α → Attempt ε σ β) :
    (x >>= f) s = f a s' := by
  change (StateT.bind x (ExceptT.bindCont f)) s = _
  simp only [StateT.bind, h]
  rfl

theorem bind_of_error (h : x s = (.error e, s')) (f : α → Attempt ε σ β) :
    (x >>= f) s = (.error e, s') := by
  change (StateT.bind x (ExceptT.bindCont f)) s = _
  simp only [StateT.bind, h]
  rfl

end Bind

section MapM

variable {ask : α → Attempt ε σ β} {x : α} {b : β}

theorem mapM_cons_of_error (h : ask x s = (.error e, s')) (xs : List α) :
    (x :: xs).mapM ask s = (.error e, s') := by
  rw [List.mapM_cons, bind_of_error h]

theorem mapM_cons_of_ok (h : ask x s = (.ok b, mid)) (xs : List α) :
    (x :: xs).mapM ask s = ((xs.mapM ask mid).1.map (b :: ·), (xs.mapM ask mid).2) := by
  rw [List.mapM_cons, bind_of_ok h]
  rcases hrest : xs.mapM ask mid with ⟨e | bs, s'⟩
  · rw [bind_of_error hrest]
    rfl
  · rw [bind_of_ok hrest]
    rfl

theorem mapM_cons_eq_ok {xs : List α} {bs : List β} (h : (x :: xs).mapM ask s = (.ok bs, s')) :
    ∃ b mid others, ask x s = (.ok b, mid) ∧ xs.mapM ask mid = (.ok others, s') ∧ bs = b :: others := by
  rcases hx : ask x s with ⟨e | b, mid⟩
  · rw [mapM_cons_of_error hx] at h
    cases h
  · rw [mapM_cons_of_ok hx] at h
    rcases hrest : xs.mapM ask mid with ⟨e | others, last⟩ <;> rw [hrest] at h <;> cases h
    exact ⟨b, mid, others, rfl, hrest, rfl⟩

theorem mapM_cons_eq_error {xs : List α} (h : (x :: xs).mapM ask s = (.error e, s')) :
    ask x s = (.error e, s') ∨ ∃ b mid, ask x s = (.ok b, mid) ∧ xs.mapM ask mid = (.error e, s') := by
  rcases hx : ask x s with ⟨e | b, mid⟩
  · rw [mapM_cons_of_error hx] at h
    cases h
    exact .inl rfl
  · rw [mapM_cons_of_ok hx] at h
    rcases hrest : xs.mapM ask mid with ⟨e | others, last⟩ <;> rw [hrest] at h <;> cases h
    exact .inr ⟨b, mid, rfl, hrest⟩

/-- Going through a list, each element either fails, which is the end, or has the others go on from
the state that it leaves. -/
theorem mapM_induction {motive : List α → σ → Except ε (List β) × σ → Prop}
    (nil : ∀ s, motive [] s (.ok [], s))
    (error : ∀ x xs s e s', ask x s = (.error e, s') → motive (x :: xs) s (.error e, s'))
    (cons : ∀ x xs s b mid outcome s', ask x s = (.ok b, mid) → motive xs mid (outcome, s') →
      motive (x :: xs) s (outcome.map (b :: ·), s')) (xs : List α) (s : σ) :
    motive xs s (xs.mapM ask s) := by
  induction xs generalizing s with
  | nil => exact nil s
  | cons x xs ih =>
    rcases hx : ask x s with ⟨e | b, mid⟩
    · rw [mapM_cons_of_error hx]
      exact error x xs s e mid hx
    · rw [mapM_cons_of_ok hx]
      exact cons x xs s b mid _ _ hx (ih mid)

end MapM

end Attempt

end Tariff
