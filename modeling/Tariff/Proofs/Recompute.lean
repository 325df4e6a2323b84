import Mathlib.Tactic.Choose
import Tariff.Proofs.Meaning

/-!
# Evaluation without a memory

`Definitions.recompute` is `Definitions.resolve` with the table left as it is: a name is evaluated
anew each time it is met. It gives a name its meaning (`recompute_eq_ok_iff`), and where it fails it
names a term that is defined through itself (`onCycle_of_recompute_eq_error`).
-/

namespace Tariff

section Lookups

variable {α β ε : Type} {f : α → Except ε β} {xs : List α}

lemma mapM_eq_ok {g : α → β} (h : ∀ x ∈ xs, f x = .ok (g x)) : xs.mapM f = .ok (xs.map g) := by
  induction xs with
  | nil => rfl
  | cons x xs ih =>
    rw [List.mapM_cons, h x List.mem_cons_self, ih fun y hy => h y (List.mem_cons_of_mem x hy)]
    rfl

lemma exists_eq_error_of_mapM {e : ε} (h : xs.mapM f = .error e) : ∃ x ∈ xs, f x = .error e := by
  induction xs with
  | nil => cases h
  | cons x xs ih =>
    rw [List.mapM_cons] at h
    cases hx : f x with
    | error e' =>
      rw [hx] at h
      obtain rfl : e' = e := Except.error.inj h
      exact ⟨x, List.mem_cons_self, hx⟩
    | ok y =>
      rw [hx] at h
      cases hxs : xs.mapM f with
      | error e' =>
        rw [hxs] at h
        obtain rfl : e' = e := Except.error.inj h
        obtain ⟨z, hz, he⟩ := ih hxs
        exact ⟨z, List.mem_cons_of_mem x hz, he⟩
      | ok ys =>
        rw [hxs] at h
        cases h

lemma forall_eq_ok_of_mapM {ys : List β} (h : xs.mapM f = .ok ys) : ∀ x ∈ xs, ∃ y, f x = .ok y := by
  induction xs generalizing ys with
  | nil => simp
  | cons x xs ih =>
    rw [List.mapM_cons] at h
    cases hx : f x with
    | error e =>
      rw [hx] at h
      cases h
    | ok y =>
      rw [hx] at h
      cases hxs : xs.mapM f with
      | error e =>
        rw [hxs] at h
        cases h
      | ok zs =>
        intro z hz
        obtain rfl | hz := List.mem_cons.mp hz
        · exact ⟨y, hx⟩
        · exact ih hxs z hz

end Lookups

namespace Formula

variable {l : Level} {f : Formula l} {lookup : String → Except EvalError Value}

lemma evalM_eq_ok {ρ : String → Value} (h : ∀ use ∈ f.uses, lookup use = .ok (ρ use)) :
    f.evalM lookup = .ok (f.value ρ) := by
  rw [evalM_eq_mapM, mapM_eq_ok h, ← combine_map]
  rfl

lemma exists_eq_error_of_evalM {e : EvalError} (h : f.evalM lookup = .error e) :
    ∃ use ∈ f.uses, lookup use = .error e := by
  rw [evalM_eq_mapM] at h
  cases huses : f.uses.mapM lookup with
  | error e' =>
    rw [huses] at h
    obtain rfl : e' = e := Except.error.inj h
    exact exists_eq_error_of_mapM huses
  | ok values =>
    rw [huses] at h
    cases h

/-- A formula has a value only if all its names have, and it is the value under these. -/
lemma exists_values_of_evalM {v : Value} (h : f.evalM lookup = .ok v) :
    ∃ ρ : String → Value, (∀ use ∈ f.uses, lookup use = .ok (ρ use)) ∧ v = f.value ρ := by
  have hall : ∀ use ∈ f.uses, ∃ w, lookup use = .ok w := by
    cases huses : f.uses.mapM lookup with
    | error e =>
      rw [evalM_eq_mapM, huses] at h
      cases h
    | ok values => exact forall_eq_ok_of_mapM huses
  have hρ : ∀ use, ∃ w, use ∈ f.uses → lookup use = .ok w := by
    intro use
    by_cases huse : use ∈ f.uses
    · obtain ⟨w, hw⟩ := hall use huse
      exact ⟨w, fun _ => hw⟩
    · exact ⟨v, fun huse' => (huse huse').elim⟩
  choose ρ hρ using hρ
  refine ⟨ρ, hρ, ?_⟩
  rw [evalM_eq_ok hρ] at h
  exact (Except.ok.inj h).symm

end Formula

namespace Definitions

/-- The value of a name while the formulas of some names are being evaluated, with every other name
evaluated anew. -/
def recompute (definitions : Definitions) (table : Table) (resolving : List String)
    (name : String) : Except EvalError Value :=
  match table[name]? with
  | some value => .ok value
  | none =>
    match _h : definitions[name]? with
    | none => .ok (.text name)
    | some body =>
      if _hnew : name ∈ resolving then .error (.circular name)
      else body.evalM fun inner => recompute definitions table (name :: resolving) inner
termination_by definitions.unopened resolving
decreasing_by
  exact unopened_cons_lt (Std.ExtTreeMap.mem_iff_isSome_getElem?.mpr (by simp [_h])) _hnew

/-- What holds of names under evaluation holds of all lists of them, if it passes from every longer
list with one more defined name. -/
theorem opening_induction (definitions : Definitions) {motive : List String → Prop}
    (step : ∀ resolving, (∀ name, name ∈ definitions → name ∉ resolving →
      motive (name :: resolving)) → motive resolving) (resolving : List String) :
    motive resolving := by
  generalize hn : definitions.unopened resolving = n
  induction n using Nat.strongRecOn generalizing resolving with
  | _ n ih =>
    subst hn
    exact step resolving fun name hname hnew => ih _ (unopened_cons_lt hname hnew) _ rfl

variable {definitions : Definitions} {table : Table} {resolving : List String} {name : String}
  {value : Value} {body : Expression}

lemma recompute_of_entry (entry : table[name]? = some value) :
    definitions.recompute table resolving name = .ok value := by
  rw [recompute, entry]

lemma recompute_of_free (missing : name ∉ table) (undefined : name ∉ definitions) :
    definitions.recompute table resolving name = .ok (.text name) := by
  rw [recompute, getElem?_eq_none_of_not_mem missing]
  dsimp only
  split
  · rfl
  · next defined => exact (undefined (mem_of_getElem?_eq_some defined)).elim

lemma recompute_of_open (missing : name ∉ table) (defined : name ∈ definitions)
    (hopen : name ∈ resolving) :
    definitions.recompute table resolving name = .error (.circular name) := by
  rw [recompute, getElem?_eq_none_of_not_mem missing]
  dsimp only
  split
  · next undefined =>
    rw [Std.ExtTreeMap.mem_iff_isSome_getElem?, undefined] at defined
    cases defined
  · rw [dif_pos hopen]

lemma recompute_of_body (missing : name ∉ table) (defined : definitions[name]? = some body)
    (hnew : name ∉ resolving) : definitions.recompute table resolving name =
      body.evalM fun inner => definitions.recompute table (name :: resolving) inner := by
  rw [recompute, getElem?_eq_none_of_not_mem missing]
  dsimp only
  split
  · next undefined =>
    rw [undefined] at defined
    cases defined
  · next body' defined' =>
    rw [defined] at defined'
    obtain rfl := Option.some.inj defined'
    rw [dif_neg hnew]

/-- The four ways in which a name is met. -/
lemma meeting_cases (definitions : Definitions) (table : Table) (resolving : List String)
    (name : String) :
    (∃ value, table[name]? = some value) ∨ (name ∉ table ∧ name ∉ definitions) ∨
      (name ∉ table ∧ name ∈ definitions ∧ name ∈ resolving) ∨
      ∃ body, name ∉ table ∧ definitions[name]? = some body ∧ name ∉ resolving := by
  by_cases htable : name ∈ table
  · exact .inl (exists_getElem?_of_mem htable)
  · by_cases hdef : name ∈ definitions
    · by_cases hopen : name ∈ resolving
      · exact .inr (.inr (.inl ⟨htable, hdef, hopen⟩))
      · obtain ⟨body, hbody⟩ := exists_getElem?_of_mem hdef
        exact .inr (.inr (.inr ⟨body, htable, hbody, hopen⟩))
    · exact .inr (.inl ⟨htable, hdef⟩)

theorem denotes_of_recompute_eq_ok (h : definitions.recompute table resolving name = .ok value) :
    definitions.Denotes table name value := by
  induction resolving using definitions.opening_induction generalizing name value with
  | step resolving ih =>
    obtain ⟨v, entry⟩ | ⟨missing, undefined⟩ | ⟨missing, defined, hopen⟩ |
      ⟨body, missing, defined, hnew⟩ := definitions.meeting_cases table resolving name
    · rw [recompute_of_entry entry] at h
      obtain rfl := Except.ok.inj h
      exact .known entry
    · rw [recompute_of_free missing undefined] at h
      obtain rfl := Except.ok.inj h
      exact .free missing undefined
    · rw [recompute_of_open missing defined hopen] at h
      cases h
    · rw [recompute_of_body missing defined hnew] at h
      obtain ⟨ρ, hρ, rfl⟩ := Formula.exists_values_of_evalM h
      exact .computed ρ missing defined fun use huse =>
        ih name (mem_of_getElem?_eq_some defined) hnew (hρ use huse)

/-- A name has its meaning as its value as long as nothing that it reaches is being evaluated. -/
theorem recompute_of_denotes (h : definitions.Denotes table name value)
    (hfar : ∀ other ∈ resolving, ¬definitions.Reaches table name other) :
    definitions.recompute table resolving name = .ok value := by
  induction h generalizing resolving with
  | known entry => exact recompute_of_entry entry
  | @computed name body ρ missing defined uses ih =>
    have hnew : name ∉ resolving := fun hopen => hfar name hopen .refl
    have hself : definitions.Acyclic table name := (Denotes.computed ρ missing defined uses).acyclic
    rw [recompute_of_body missing defined hnew]
    apply Formula.evalM_eq_ok
    intro use huse
    have hstep := refersTo_of_use missing defined huse
    apply ih use huse
    intro other hother hreach
    obtain rfl | hother := List.mem_cons.mp hother
    · exact hself other .refl (.head' hstep hreach)
    · exact hfar other hother (.head hstep hreach)
  | free missing undefined => exact recompute_of_free missing undefined

theorem recompute_eq_ok_iff : definitions.recompute table [] name = .ok value ↔
    definitions.Denotes table name value :=
  ⟨denotes_of_recompute_eq_ok, fun h => recompute_of_denotes h (by simp)⟩

/-- A failing evaluation names a term that it reaches and that is being evaluated, by the caller or
by itself. -/
theorem onCycle_of_recompute_eq_error {other : String}
    (h : definitions.recompute table resolving name = .error (.circular other)) :
    definitions.Reaches table name other ∧ (other ∈ resolving ∧ other ∈ definitions ∧ other ∉ table ∨
      definitions.OnCycle table other) := by
  induction resolving using definitions.opening_induction generalizing name with
  | step resolving ih =>
    obtain ⟨v, entry⟩ | ⟨missing, undefined⟩ | ⟨missing, defined, hopen⟩ |
      ⟨body, missing, defined, hnew⟩ := definitions.meeting_cases table resolving name
    · rw [recompute_of_entry entry] at h
      cases h
    · rw [recompute_of_free missing undefined] at h
      cases h
    · rw [recompute_of_open missing defined hopen] at h
      obtain rfl := EvalError.circular.inj (Except.error.inj h)
      exact ⟨.refl, .inl ⟨hopen, defined, missing⟩⟩
    · rw [recompute_of_body missing defined hnew] at h
      obtain ⟨use, huse, herror⟩ := Formula.exists_eq_error_of_evalM h
      have hstep := refersTo_of_use missing defined huse
      obtain ⟨hreach, hwhere⟩ := ih name (mem_of_getElem?_eq_some defined) hnew herror
      refine ⟨.head hstep hreach, ?_⟩
      obtain ⟨hother, hdefined⟩ | hcycle := hwhere
      · obtain rfl | hother := List.mem_cons.mp hother
        · exact .inr (.head' hstep hreach)
        · exact .inl ⟨hother, hdefined⟩
      · exact .inr hcycle

/-- A name from which no cycle is reached has a meaning. -/
theorem Acyclic.exists_denotes (h : definitions.Acyclic table name) :
    ∃ value, definitions.Denotes table name value := by
  cases hrun : definitions.recompute table [] name with
  | ok value => exact ⟨value, denotes_of_recompute_eq_ok hrun⟩
  | error e =>
    obtain ⟨other⟩ := e
    obtain ⟨hreach, ⟨hopen, -⟩ | hcycle⟩ := onCycle_of_recompute_eq_error hrun
    · cases hopen
    · exact (h other hreach hcycle).elim

end Definitions

end Tariff
