import Tariff.Proofs.EvaluationOutcome

/-!
# Sessions

A session puts requests one after another to one growing table, through `Document.evaluate` or
through a `Scope`. Requests that fail leave entries too. No answer depends on what was asked before
it (`answers_eq_fresh`): the table of a session satisfies `Definitions.Memo` after every request,
and under it a look-up comes to what it comes to without a memory.
-/

namespace Tariff

section AskInTurn

variable {σ α : Type} {ask : String → σ → α × σ}

/-- The answers to requests made one after another, each in the state that the one before it left,
and the state after the last one. -/
def askInTurn (ask : String → σ → α × σ) : List String → σ → List α × σ
  | [], s => ([], s)
  | name :: names, s =>
    let (answer, s) := ask name s
    let (answers, s) := askInTurn ask names s
    (answer :: answers, s)

lemma askInTurn_of_invariant {invariant : σ → Prop} {expected : String → α}
    (hstep : ∀ name s, invariant s → (ask name s).1 = expected name ∧ invariant (ask name s).2)
    (names : List String) {s : σ} (hs : invariant s) :
    (askInTurn ask names s).1 = names.map expected ∧ invariant (askInTurn ask names s).2 := by
  induction names generalizing s with
  | nil => exact ⟨rfl, hs⟩
  | cons name names ih =>
    obtain ⟨hanswer, hnext⟩ := hstep name s hs
    obtain ⟨hanswers, hlast⟩ := ih hnext
    refine ⟨?_, hlast⟩
    simp only [askInTurn, List.map_cons]
    rw [hanswer, hanswers]

end AskInTurn

/-- A session of requests to one document. -/
def Document.evaluateAll (d : Document) (names : List String) (table : Table) :
    List (Except EvalError Value) × Table :=
  askInTurn d.evaluate names table

/-- A session of requests to one scope. -/
def Scope.resolveAll (scope : Scope) (names : List String) :
    List (Except EvalError Value) × Scope :=
  askInTurn (fun name scope => scope.resolve name) names scope

/-- A scope between two requests: no formula is being evaluated, and its table is the one of a run
that started from `table`. -/
structure Scope.Idle (definitions : Definitions) (table : Table) (scope : Scope) : Prop where
  definitions_eq : scope.definitions = definitions
  resolving_eq : scope.resolving = []
  memo : definitions.Memo table [] scope.table

lemma Scope.idle_ofTable (definitions : Definitions) (table : Table) :
    (Scope.ofTable definitions table).Idle definitions table :=
  ⟨rfl, rfl, .initial definitions table⟩

section Requests

variable {d : Document} {definitions : Definitions} {table memo : Table} {scope : Scope}

-- The invariant of one evaluation also carries a session: its runs share the first table.
lemma Document.evaluate_of_memo (name : String) (hmemo : d.definitionOf.Memo table [] memo) :
    (d.evaluate name memo).1 = (d.evaluate name table).1 ∧
      d.definitionOf.Memo table [] (d.evaluate name memo).2 := by
  have hlater := Definitions.resolve_faithful hmemo name
  have hfresh := Definitions.resolve_fst_eq_recompute d.definitionOf table name
  exact ⟨hlater.outcome.trans hfresh.symm, hlater.invariant⟩

/-- A scope is idle again after every request, whatever that comes to. -/
lemma Scope.resolve_of_idle (name : String) (hidle : scope.Idle definitions table) :
    (scope.resolve name).1 = ((Scope.ofTable definitions table).resolve name).1 ∧
      (scope.resolve name).2.Idle definitions table := by
  obtain ⟨rfl, hresolving, hmemo⟩ := hidle
  have hlater := Definitions.resolve_faithful hmemo name
  have hfresh := Definitions.resolve_fst_eq_recompute scope.definitions table name
  have hrun : scope.resolve name =
      ((scope.definitions.resolve [] name scope.table).1,
        { scope with table := (scope.definitions.resolve [] name scope.table).2 }) := by
    rw [← hresolving]
    rfl
  rw [hrun]
  exact ⟨hlater.outcome.trans hfresh.symm, rfl, hresolving, hlater.invariant⟩

lemma Document.fst_evaluateAll (d : Document) (table : Table) (names : List String) :
    (d.evaluateAll names table).1 = names.map (fun name => (d.evaluate name table).1) :=
  (askInTurn_of_invariant (fun name _ => evaluate_of_memo name) names (.initial _ table)).1

lemma Scope.fst_resolveAll (definitions : Definitions) (table : Table) (names : List String) :
    ((ofTable definitions table).resolveAll names).1 =
      names.map (fun name => ((ofTable definitions table).resolve name).1) :=
  (askInTurn_of_invariant (fun name _ => resolve_of_idle name) names
    (idle_ofTable definitions table)).1

end Requests

/-- Each answer of a session is the one that its name alone gets from the first table, a failure
included. So no answer changes when requests are reordered, or when others come in between. -/
theorem answers_eq_fresh (d : Document) (table : Table) (names : List String) :
    (d.evaluateAll names table).1 = names.map (fun name => (d.evaluate name table).1) ∧
    ((Scope.ofTable d.definitionOf table).resolveAll names).1 =
      names.map (fun name => ((Scope.ofTable d.definitionOf table).resolve name).1) ∧
    (∀ name, ((Scope.ofTable d.definitionOf table).resolve name).1 = (d.evaluate name table).1) ∧
    ∀ (others : List String) (i j : ℕ), names[i]? = others[j]? →
      (d.evaluateAll names table).1[i]? = (d.evaluateAll others table).1[j]? ∧
      ((Scope.ofTable d.definitionOf table).resolveAll names).1[i]? =
        ((Scope.ofTable d.definitionOf table).resolveAll others).1[j]? := by
  refine ⟨d.fst_evaluateAll table names, Scope.fst_resolveAll _ table names, fun name => rfl, ?_⟩
  intro others i j hname
  constructor
  · rw [d.fst_evaluateAll, d.fst_evaluateAll, List.getElem?_map, List.getElem?_map, hname]
  · rw [Scope.fst_resolveAll, Scope.fst_resolveAll, List.getElem?_map, List.getElem?_map, hname]

end Tariff
