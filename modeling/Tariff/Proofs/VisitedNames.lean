import Tariff.Proofs.Unwinding

/-!
# The names that an evaluation looks up

The evaluation of a formula looks up the names in it, each time they occur and in source order, until one
of them fails (`evaluate_visits_uses`). An evaluation that is watched keeps a list of the names that were
looked up so far, and goes as it does unwatched.
-/

namespace Tariff

section Visits

variable {σ : Type} {ask : String → Attempt EvalError σ Value} {s s' : σ} {name : String}
  {names after : List String} {values : List Value} {e : EvalError}

/-- The names are looked up one after the other. All are found, and this is what they leave. -/
inductive Visits (ask : String → Attempt EvalError σ Value) :
    σ → List String → List Value → σ → Prop
  | nil (s : σ) : Visits ask s [] [] s
  | cons {s mid s' : σ} {name : String} {value : Value} {names : List String} {values : List Value}
      (first : ask name s = (.ok value, mid)) (rest : Visits ask mid names values s') :
      Visits ask s (name :: names) (value :: values) s'

lemma Visits.mapM (h : Visits ask s names values s') : names.mapM ask s = (.ok values, s') := by
  induction h with
  | nil s => rfl
  | cons first rest ih =>
    rw [Attempt.mapM_cons_of_ok first, ih]
    rfl

lemma Visits.mapM_of_error {mid : σ} (h : Visits ask s names values mid)
    (hname : ask name mid = (.error e, s')) (after : List String) :
    (names ++ name :: after).mapM ask s = (.error e, s') := by
  rw [List.mapM_append, Attempt.bind_of_ok h.mapM,
    Attempt.bind_of_error (Attempt.mapM_cons_of_error hname after)]

/-- A sequence of look-ups goes on to its end or to the first one that fails. -/
lemma exists_visits (ask : String → Attempt EvalError σ Value) (names : List String) (s : σ) :
    (∃ values s', Visits ask s names values s') ∨
      ∃ before name after values mid e s', names = before ++ name :: after ∧
        Visits ask s before values mid ∧ ask name mid = (.error e, s') := by
  induction names generalizing s with
  | nil => exact .inl ⟨[], s, .nil s⟩
  | cons name names ih =>
    rcases hname : ask name s with ⟨e | value, mid⟩
    · exact .inr ⟨[], name, names, [], s, e, mid, rfl, .nil s, hname⟩
    · obtain ⟨values, s', hrest⟩ | ⟨before, use, after, values, last, e, s', rfl, hrest, huse⟩ := ih mid
      · exact .inl ⟨value :: values, s', .cons hname hrest⟩
      · exact .inr ⟨name :: before, use, after, value :: values, last, e, s', rfl, .cons hname hrest,
          huse⟩

variable {l : Level} {f : Formula l}

lemma Visits.evalM (h : Visits ask s f.uses values s') :
    f.evalM ask s = (.ok (f.combine values), s') := by
  rw [Formula.evalM_eq_mapM, Attempt.bind_of_ok h.mapM]
  rfl

lemma Visits.evalM_of_error {mid : σ} (h : Visits ask s names values mid)
    (hname : ask name mid = (.error e, s')) (huses : f.uses = names ++ name :: after) :
    f.evalM ask s = (.error e, s') := by
  rw [Formula.evalM_eq_mapM, huses, Attempt.bind_of_error (h.mapM_of_error hname after)]

/-- A look-up that is noted behind those before it. -/
def watched (ask : String → Attempt EvalError σ Value) (name : String) :
    Attempt EvalError (σ × List String) Value := fun (s, seen) =>
  ((ask name s).1, (ask name s).2, seen ++ [name])

lemma watched_of_eq {outcome : Except EvalError Value} (h : ask name s = (outcome, s'))
    (seen : List String) : watched ask name (s, seen) = (outcome, s', seen ++ [name]) := by
  change ((ask name s).1, (ask name s).2, seen ++ [name]) = _
  rw [h]

lemma Visits.watched (h : Visits ask s names values s') (seen : List String) :
    Visits (watched ask) (s, seen) names values (s', seen ++ names) := by
  induction h generalizing seen with
  | nil s =>
    rw [List.append_nil]
    exact .nil _
  | @cons s mid s' name value names values first rest ih =>
    have hrest := ih (seen ++ [name])
    rw [List.append_assoc, List.singleton_append] at hrest
    exact .cons (watched_of_eq first seen) hrest

end Visits

namespace Scope

def ask (name : String) : Attempt EvalError Scope Value := fun scope =>
  scope.resolve name

/-- The value of a formula in a scope, and the scope that its evaluation leaves. -/
def evaluate {l : Level} (scope : Scope) (f : Formula l) : Except EvalError Value × Scope :=
  scope.leave (f.evalM (scope.definitions.resolve scope.resolving) scope.table)

lemma evalM_ask {l : Level} (scope : Scope) (f : Formula l) :
    f.evalM ask scope = scope.evaluate f :=
  evalM_leave (fun _ _ => rfl) f

/-- The evaluation of a formula looks up the names in it, once for each time they occur and in source
order. If all are found, it succeeds, the value is put together from theirs, and the scope is the one that
these look-ups leave. Otherwise it fails with the error of the first one that does, and with the scope that
this one leaves, and looks up nothing after it. -/
theorem evaluate_visits_uses {l : Level} (scope : Scope) (f : Formula l) :
    (∃ values last, Visits ask scope f.uses values last ∧
      scope.evaluate f = (.ok (f.combine values), last) ∧
      f.evalM (watched ask) (scope, []) = (.ok (f.combine values), last, f.uses)) ∨
    ∃ before name after values mid e last, f.uses = before ++ name :: after ∧
      Visits ask scope before values mid ∧ mid.resolve name = (.error e, last) ∧
      scope.evaluate f = (.error e, last) ∧
      f.evalM (watched ask) (scope, []) = (.error e, last, before ++ [name]) := by
  rw [← evalM_ask]
  obtain ⟨values, last, hvisits⟩ | ⟨before, name, after, values, mid, e, last, huses, hvisits, hname⟩ :=
    exists_visits ask f.uses scope
  · exact .inl ⟨values, last, hvisits, hvisits.evalM, (hvisits.watched []).evalM⟩
  · exact .inr ⟨before, name, after, values, mid, e, last, huses, hvisits, hname,
      hvisits.evalM_of_error hname huses,
      (hvisits.watched []).evalM_of_error (watched_of_eq hname before) huses⟩

end Scope

end Tariff
