import Tariff.Proofs.Recompute

/-!
# First failures

A computation that goes through a list in `Except` either has a value for every element or fails as
the first element does that has none. `FirstFailure` says which one that is, without the computation.
-/

namespace Tariff

variable {α β σ ε : Type} {f : α → Except ε β} {xs : List α} {x : α} {e : ε}

/-- The first element of a list on which `f` fails, and with what. -/
def FirstFailure (f : α → Except ε β) (xs : List α) (e : ε) : Prop :=
  ∃ (before : List α) (x : α) (after : List α), xs = before ++ x :: after ∧
    (∀ y ∈ before, ∃ v, f y = .ok v) ∧ f x = .error e

lemma firstFailure_nil : ¬FirstFailure f [] e := by
  rintro ⟨before, x, after, hsplit, -, -⟩
  simp at hsplit

lemma firstFailure_cons : FirstFailure f (x :: xs) e ↔
    f x = .error e ∨ (∃ v, f x = .ok v) ∧ FirstFailure f xs e := by
  constructor
  · rintro ⟨before, y, after, hsplit, hbefore, hfail⟩
    cases before with
    | nil =>
      obtain ⟨rfl, rfl⟩ := List.cons.inj hsplit
      exact .inl hfail
    | cons z before =>
      obtain ⟨rfl, rfl⟩ := List.cons.inj hsplit
      rw [List.forall_mem_cons] at hbefore
      exact .inr ⟨hbefore.1, before, y, after, rfl, hbefore.2, hfail⟩
  · rintro (hfail | ⟨hok, before, y, after, rfl, hbefore, hfail⟩)
    · exact ⟨[], x, xs, rfl, by simp, hfail⟩
    · exact ⟨x :: before, y, after, rfl, List.forall_mem_cons.mpr ⟨hok, hbefore⟩, hfail⟩

lemma not_forall_ok_of_firstFailure (h : FirstFailure f xs e) : ¬∀ x ∈ xs, ∃ v, f x = .ok v := by
  obtain ⟨before, x, after, rfl, -, hfail⟩ := h
  intro hall
  obtain ⟨v, hv⟩ := hall x (by simp)
  cases hfail.symm.trans hv

/-- A fold that evaluates each element fails as the first element does that fails. -/
theorem foldlM_eq_error_iff (step : σ → α → β → σ) (s : σ) :
    xs.foldlM (fun s x => do return step s x (← f x)) s = .error e ↔ FirstFailure f xs e := by
  induction xs generalizing s with
  | nil =>
    refine iff_of_false ?_ firstFailure_nil
    intro h
    cases h
  | cons x xs ih =>
    rw [List.foldlM_cons, firstFailure_cons]
    cases hx : f x with
    | error e' =>
      change Except.error e' = Except.error e ↔ _
      simp
    | ok y =>
      change xs.foldlM _ (step s x y) = Except.error e ↔ _
      rw [ih]
      simp

theorem foldlM_eq_ok {g : α → β} (step : σ → α → β → σ) (h : ∀ x ∈ xs, f x = .ok (g x)) (s : σ) :
    xs.foldlM (fun s x => do return step s x (← f x)) s =
      .ok (xs.foldl (fun s x => step s x (g x)) s) := by
  induction xs generalizing s with
  | nil => rfl
  | cons x xs ih =>
    rw [List.forall_mem_cons] at h
    rw [List.foldlM_cons, List.foldl_cons, ← ih h.2, h.1]
    rfl

theorem mapM_eq_error_iff : xs.mapM f = .error e ↔ FirstFailure f xs e := by
  induction xs with
  | nil =>
    refine iff_of_false ?_ firstFailure_nil
    intro h
    cases h
  | cons x xs ih =>
    rw [List.mapM_cons, firstFailure_cons, ← ih]
    cases f x with
    | error e' =>
      change Except.error e' = Except.error e ↔ _
      simp
    | ok y =>
      cases xs.mapM f with
      | error e' =>
        change Except.error e' = Except.error e ↔ _
        simp
      | ok ys =>
        refine iff_of_false ?_ (by simp)
        intro h
        cases h

lemma mapM_mapError {ε' : Type} (g : ε → ε') (f : α → Except ε β) (xs : List α) :
    (xs.mapM f).mapError g = xs.mapM fun x => (f x).mapError g := by
  induction xs with
  | nil => rfl
  | cons x xs ih =>
    rw [List.mapM_cons, List.mapM_cons, ← ih]
    cases f x with
    | error e => rfl
    | ok y => cases xs.mapM f <;> rfl

/-- Either all elements have values, or one is the first to fail. -/
lemma forall_ok_or_firstFailure (f : α → Except ε β) (xs : List α) :
    (∀ x ∈ xs, ∃ v, f x = .ok v) ∨ ∃ e, FirstFailure f xs e := by
  cases h : xs.mapM f with
  | error e => exact .inr ⟨e, mapM_eq_error_iff.mp h⟩
  | ok ys => exact .inl (forall_eq_ok_of_mapM h)

end Tariff
