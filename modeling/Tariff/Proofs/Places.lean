import Mathlib.Data.List.Induction
import Mathlib.Tactic.Common
import Tariff.Text.Location

/-!
# The order of places

`Location.behind s` says where a text `s` at the start of a document ends, by counting in `s` as a
whole. Moving a place along piece by piece leads there as well (`advance_start`). Every step leads
further on in the order of a reader, `Location.Before`.
-/

namespace Tariff.Location

/-- The place behind a text: its line feeds are counted, and the characters after the last one. -/
def behind (s : List Char) : Location :=
  ⟨1 + s.count '\n', (s.reverse.takeWhile (· ≠ '\n')).length⟩

/-- A reader comes to the first place before the second one. -/
def Before (l m : Location) : Prop :=
  l.line < m.line ∨ l.line = m.line ∧ l.column < m.column

variable {l m n : Location} {s t : List Char}

lemma behind_concat (s : List Char) (c : Char) : behind (s ++ [c]) = (behind s).next c := by
  by_cases hc : c = '\n'
  · simp [behind, next, hc, Nat.add_assoc]
  · simp [behind, next, hc]

theorem advance_start (s : List Char) : start.advance s = behind s := by
  induction s using List.reverseRecOn with
  | nil => rfl
  | append_singleton s c ih =>
    rw [advance_append, ih, behind_concat]
    rfl

lemma behind_append (s t : List Char) : behind (s ++ t) = (behind s).advance t := by
  rw [← advance_start, ← advance_start, advance_append]

lemma Before.trans (h : l.Before m) (h' : m.Before n) : l.Before n := by
  unfold Before at h h' ⊢
  omega

lemma Before.ne (h : l.Before m) : l ≠ m := by
  intro heq
  subst heq
  unfold Before at h
  omega

lemma before_next (l : Location) (c : Char) : l.Before (l.next c) := by
  unfold next
  by_cases hc : c = '\n'
  · rw [if_pos hc]
    exact .inl (Nat.lt_succ_self _)
  · rw [if_neg hc]
    exact .inr ⟨rfl, Nat.lt_succ_self _⟩

lemma eq_or_before_advance (l : Location) (s : List Char) : l.advance s = l ∨ l.Before (l.advance s) := by
  induction s generalizing l with
  | nil => exact .inl rfl
  | cons c s ih =>
    have hfirst := before_next l c
    rw [advance_cons]
    rcases ih (l.next c) with heq | hrest
    · rw [heq]
      exact .inr hfirst
    · exact .inr (hfirst.trans hrest)

lemma before_advance (l : Location) (h : s ≠ []) : l.Before (l.advance s) := by
  cases s with
  | nil => exact (h rfl).elim
  | cons c s =>
    have hfirst := before_next l c
    rw [advance_cons]
    rcases eq_or_before_advance (l.next c) s with heq | hrest
    · rwa [heq]
    · exact hfirst.trans hrest

lemma notAfter_iff : l.notAfter m = true ↔ l.line < m.line ∨ l.line = m.line ∧ l.column ≤ m.column := by
  simp [notAfter]

lemma notAfter_iff_not_before : l.notAfter m = true ↔ ¬m.Before l := by
  rw [notAfter_iff]
  unfold Before
  omega

lemma notAfter_self (l : Location) : l.notAfter l = true := by
  rw [notAfter_iff]
  exact .inr ⟨rfl, Nat.le_refl _⟩

lemma Before.not_notAfter (h : l.Before m) : m.notAfter l = false := by
  rw [← Bool.not_eq_true, notAfter_iff_not_before, not_not]
  exact h

lemma Before.notAfter (h : l.Before m) : l.notAfter m = true := by
  rw [notAfter_iff_not_before]
  intro hback
  exact (h.trans hback).ne rfl

lemma notAfter_trans (h : l.notAfter m = true) (h' : m.notAfter n = true) : l.notAfter n = true := by
  rw [notAfter_iff] at h h' ⊢
  omega

lemma notAfter_total (l m : Location) : l.notAfter m = true ∨ m.notAfter l = true := by
  rw [notAfter_iff, notAfter_iff]
  omega

end Tariff.Location
