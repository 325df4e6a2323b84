import Tariff.Proofs.EvaluationOutcome

/-!
# What a failed evaluation leaves behind

A failure ends every evaluation that is under way. Each of them takes its own name off the names being
resolved, and enters nothing. What was finished before stays in the table, and is what evaluation
without a memory gives (`failed_resolve_leaves_scope_sound`). Nothing is asked of the scope in which
the evaluation started, so this also holds in the middle of another evaluation.
-/

namespace Tariff

namespace Scope

/-- The formula of a name is going to be evaluated. -/
def mark (scope : Scope) (name : String) : Scope :=
  { scope with resolving := name :: scope.resolving }

/-- The formula of a name is no longer being evaluated. -/
def unmark (scope : Scope) (name : String) : Scope :=
  { scope with resolving := scope.resolving.filter (· ≠ name) }

def enter (scope : Scope) (name : String) (value : Value) : Scope :=
  { scope with table := scope.table.insert name value }

/-- The formulas that could still be evaluated. -/
def unopened (scope : Scope) : Nat :=
  scope.definitions.unopened scope.resolving

/-- A look-up that changes the scope as it goes: a name is taken in before its formula is evaluated, and
taken out after that whatever it came to. Inside a formula there are always fewer formulas left to be
evaluated. -/
def resolveMarking (scope : Scope) (name : String) : Except EvalError Value × Scope :=
  match scope.table[name]? with
  | some value => (.ok value, scope)
  | none =>
    match scope.definitions[name]? with
    | none => (.ok (.text name), scope)
    | some body =>
      if name ∈ scope.resolving then (.error (.circular name), scope)
      else
        match body.evalM (m := Attempt EvalError Scope) (fun use inner =>
          if inner.unopened < scope.unopened then resolveMarking inner use
          else (.error (.circular use), inner)) (scope.mark name) with
        | (.ok value, left) => (.ok value, (left.unmark name).enter name value)
        | (.error e, left) => (.error e, left.unmark name)
termination_by scope.unopened

/-- A scope with the table that a run has left. -/
def leave {α : Type} (scope : Scope) (run : Except EvalError α × Table) :
    Except EvalError α × Scope :=
  (run.1, { scope with table := run.2 })

lemma resolve_eq_leave (scope : Scope) (name : String) : scope.resolve name =
    scope.leave (scope.definitions.resolve scope.resolving name scope.table) := rfl

variable {scope : Scope} {name : String} {value : Value} {body : Expression}

lemma unmark_mark (hnew : name ∉ scope.resolving) : (scope.mark name).unmark name = scope := by
  have hrest : (scope.mark name).resolving.filter (· ≠ name) = scope.resolving := by
    rw [mark, List.filter_cons_of_neg (by simp), List.filter_eq_self]
    intro other hother
    simpa using ne_of_mem_of_not_mem hother hnew
  rw [unmark, hrest]
  rfl

/-- A sequence of look-ups that leave the names under evaluation as they are. -/
lemma mapM_leave {lookup : String → Evaluation Value}
    {ask : String → Attempt EvalError Scope Value}
    (hask : ∀ use table, ask use { scope with table } = scope.leave (lookup use table))
    (uses : List String) (table : Table) :
    uses.mapM ask { scope with table } = scope.leave (uses.mapM lookup table) := by
  refine Attempt.mapM_induction (motive := fun uses table run =>
    uses.mapM ask { scope with table } = scope.leave run) (fun _ => rfl) ?error ?cons uses table
  case error =>
    intro use uses table e last hrun
    have hfirst : ask use { scope with table } = (.error e, { scope with table := last }) := by
      rw [hask, hrun]
      rfl
    exact Attempt.mapM_cons_of_error hfirst uses
  case cons =>
    intro use uses table v mid outcome last hrun ih
    have hfirst : ask use { scope with table } = (.ok v, { scope with table := mid }) := by
      rw [hask, hrun]
      rfl
    rw [Attempt.mapM_cons_of_ok hfirst, ih]
    rfl

lemma evalM_leave {lookup : String → Evaluation Value}
    {ask : String → Attempt EvalError Scope Value}
    (hask : ∀ use table, ask use { scope with table } = scope.leave (lookup use table))
    {l : Level} (body : Formula l) :
    body.evalM ask scope = scope.leave (body.evalM lookup scope.table) := by
  rw [Formula.evalM_eq_mapM, Formula.evalM_eq_mapM]
  have huses := mapM_leave hask body.uses scope.table
  rcases hrun : body.uses.mapM lookup scope.table with ⟨e | vs, last⟩
  · rw [hrun] at huses
    rw [Attempt.bind_of_error huses, Attempt.bind_of_error hrun]
    rfl
  · rw [hrun] at huses
    rw [Attempt.bind_of_ok huses, Attempt.bind_of_ok hrun]
    rfl

/-- Names that are taken in and out are the same names in the end. -/
theorem resolveMarking_eq_resolve (scope : Scope) (name : String) :
    scope.resolveMarking name = scope.resolve name := by
  obtain ⟨definitions, table, resolving⟩ := scope
  rw [resolve_eq_leave]
  induction resolving using definitions.opening_induction generalizing table name with
  | step resolving ih =>
    obtain ⟨v, entry⟩ | ⟨missing, undefined⟩ | ⟨missing, defined, hopen⟩ |
      ⟨body, missing, defined, hnew⟩ := definitions.meeting_cases table resolving name
    · rw [Definitions.resolve_of_entry entry, resolveMarking, entry]
      rfl
    · rw [Definitions.resolve_of_free missing undefined, resolveMarking,
        Definitions.getElem?_eq_none_of_not_mem missing,
        Definitions.getElem?_eq_none_of_not_mem undefined]
      rfl
    · obtain ⟨body, hbody⟩ := Definitions.exists_getElem?_of_mem defined
      rw [Definitions.resolve_of_open missing defined hopen, resolveMarking,
        Definitions.getElem?_eq_none_of_not_mem missing]
      dsimp only
      rw [hbody]
      dsimp only
      rw [if_pos hopen]
      rfl
    · have hname := Definitions.mem_of_getElem?_eq_some defined
      have hless := Definitions.unopened_cons_lt hname hnew
      have hask (use : String) (memo : Table) := ih name hname hnew use memo
      have hbody : body.evalM (m := Attempt EvalError Scope) (fun use inner =>
            if inner.unopened < Scope.unopened ⟨definitions, table, resolving⟩ then
              inner.resolveMarking use
            else (.error (.circular use), inner)) (Scope.mark ⟨definitions, table, resolving⟩ name) =
          (Scope.mark ⟨definitions, table, resolving⟩ name).leave
            (body.evalM (definitions.resolve (name :: resolving)) table) :=
        evalM_leave (fun use memo => (if_pos hless).trans (hask use memo)) body
      have hunmark (memo : Table) :
          (Scope.mark ⟨definitions, memo, resolving⟩ name).unmark name =
            ⟨definitions, memo, resolving⟩ := unmark_mark hnew
      rw [Definitions.resolve_of_body missing defined hnew, resolveMarking,
        Definitions.getElem?_eq_none_of_not_mem missing]
      dsimp only
      rw [defined]
      dsimp only
      rw [if_neg hnew, hbody]
      rcases body.evalM (definitions.resolve (name :: resolving)) table with ⟨e | v, memo⟩
      · exact congrArg (Prod.mk _) (hunmark memo)
      · exact congrArg (fun scope => (Except.ok v, scope.enter name v)) (hunmark memo)

end Scope

/-! ### What a run adds -/

namespace Definitions

variable {definitions : Definitions} {table memo : Table} {resolving : List String}
  {name other : String} {value : Value} {body : Expression}

/-- A run from `memo`, however it ends: the table stays sound, no name whose formula is being evaluated
gets an entry, and a result is what was meant. -/
structure LeavesSound {α : Type} (definitions : Definitions) (table : Table) (resolving : List String)
    (memo : Table) (meant : α → Prop) (run : Except EvalError α × Table) : Prop where
  sound : definitions.Sound table run.2
  opened : ∀ name ∈ resolving, name ∉ memo → name ∉ run.2
  result : ∀ a, run.1 = .ok a → meant a

namespace LeavesSound

variable {α : Type} {meant : α → Prop}

lemma unchanged (h : definitions.Sound table memo) (outcome : Except EvalError α)
    (hresult : ∀ a, outcome = .ok a → meant a) :
    definitions.LeavesSound table resolving memo meant (outcome, memo) :=
  ⟨h, fun _ _ hmissing => hmissing, hresult⟩

lemma mapM {lookup : String → Evaluation Value}
    (hlookup : ∀ name memo, definitions.Sound table memo →
      definitions.LeavesSound table resolving memo (definitions.Denotes table name) (lookup name memo))
    (names : List String) (hmemo : definitions.Sound table memo) :
    definitions.LeavesSound table resolving memo (List.Forall₂ (definitions.Denotes table) names)
      (names.mapM lookup memo) := by
  refine Attempt.mapM_induction (motive := fun names memo run => definitions.Sound table memo →
    definitions.LeavesSound table resolving memo (List.Forall₂ (definitions.Denotes table) names) run)
    ?nil ?error ?cons names memo hmemo
  case nil =>
    intro memo hmemo
    exact unchanged hmemo _ fun _ hok => by cases hok; exact .nil
  case error =>
    intro name names memo e last hrun hmemo
    have hfirst := hlookup name memo hmemo
    rw [hrun] at hfirst
    exact ⟨hfirst.sound, hfirst.opened, fun _ hok => by cases hok⟩
  case cons =>
    intro name names memo v mid outcome last hrun ih hmemo
    have hfirst := hlookup name memo hmemo
    rw [hrun] at hfirst
    have hrest := ih hfirst.sound
    refine ⟨hrest.sound, fun r hr hmissing => hrest.opened r hr (hfirst.opened r hr hmissing),
      fun _ hok => ?_⟩
    cases outcome with
    | error e => cases hok
    | ok vs =>
      cases hok
      exact .cons (hfirst.result v rfl) (hrest.result vs rfl)

end LeavesSound

lemma eq_map_of_forall₂_denotes {uses : List String} {values : List Value} {ρ : String → Value}
    (h : List.Forall₂ (definitions.Denotes table) uses values)
    (hρ : ∀ use ∈ uses, definitions.Denotes table use (ρ use)) : values = uses.map ρ := by
  induction h with
  | nil => rfl
  | cons hfirst _ ih =>
    rw [List.forall_mem_cons] at hρ
    rw [List.map_cons, hfirst.unique hρ.1, ih hρ.2]

/-- A formula whose names have been looked up has the value that it has where each name has its meaning. -/
lemma exists_value_of_forall₂_denotes {l : Level} {f : Formula l} {values : List Value}
    (h : List.Forall₂ (definitions.Denotes table) f.uses values) :
    ∃ ρ : String → Value, (∀ use ∈ f.uses, definitions.Denotes table use (ρ use)) ∧
      f.combine values = f.value ρ := by
  have hmeaning : ∀ use ∈ f.uses, ∃ v, definitions.Denotes table use v := by
    intro use huse
    obtain ⟨i, hi, rfl⟩ := List.getElem_of_mem huse
    exact ⟨_, (List.forall₂_iff_get.mp h).2 i hi (by rwa [← h.length_eq])⟩
  choose! ρ hρ using hmeaning
  exact ⟨ρ, hρ, by rw [eq_map_of_forall₂_denotes h hρ, Formula.combine_map]⟩

/-- A formula whose names have been looked up gives the meaning of the name that it defines. -/
lemma denotes_of_forall₂_denotes {values : List Value} (missing : name ∉ table)
    (defined : definitions[name]? = some body)
    (h : List.Forall₂ (definitions.Denotes table) body.uses values) :
    definitions.Denotes table name (body.combine values) := by
  obtain ⟨ρ, hρ, hvalue⟩ := exists_value_of_forall₂_denotes h
  rw [hvalue]
  exact .computed ρ missing defined hρ

/-- Every run is sound, whichever names are being resolved when it starts. -/
theorem resolve_leavesSound (hmemo : definitions.Sound table memo) (resolving : List String)
    (name : String) : definitions.LeavesSound table resolving memo (definitions.Denotes table name)
      (definitions.resolve resolving name memo) := by
  induction resolving using definitions.opening_induction generalizing name memo with
  | step resolving ih =>
    obtain ⟨v, entry⟩ | ⟨missing, undefined⟩ | ⟨missing, defined, hopen⟩ |
      ⟨body, missing, defined, hnew⟩ := definitions.meeting_cases memo resolving name
    · rw [resolve_of_entry entry]
      apply LeavesSound.unchanged hmemo
      intro _ h
      cases h
      exact hmemo.denotes entry
    · rw [resolve_of_free missing undefined]
      apply LeavesSound.unchanged hmemo
      intro _ h
      cases h
      exact .free (hmemo.not_mem_table missing) undefined
    · rw [resolve_of_open missing defined hopen]
      exact LeavesSound.unchanged hmemo _ fun _ h => by cases h
    · have hname := mem_of_getElem?_eq_some defined
      have huses := LeavesSound.mapM (fun use memo hmemo => ih name hname hnew hmemo use) body.uses hmemo
      rw [resolve_of_body missing defined hnew, Formula.evalM_eq_mapM]
      rcases hrun : body.uses.mapM (definitions.resolve (name :: resolving)) memo with ⟨e | vs, last⟩
      · rw [hrun] at huses
        rw [Attempt.bind_of_error hrun]
        exact ⟨huses.sound, fun r hr => huses.opened r (List.mem_cons_of_mem name hr),
          fun _ h => by cases h⟩
      · rw [hrun] at huses
        rw [Attempt.bind_of_ok hrun]
        -- The uses may have filled the table, but not for the name itself, which was open.
        have hmissing := huses.opened name List.mem_cons_self missing
        have hmeaning := denotes_of_forall₂_denotes (hmemo.not_mem_table missing) defined
          (huses.result vs rfl)
        refine ⟨huses.sound.insert hmissing hname hmeaning, fun r hr hnot hmem => ?_, fun _ h => ?_⟩
        · rcases mem_insert_name.mp hmem with rfl | hlast
          · exact hnew hr
          · exact huses.opened r (List.mem_cons_of_mem name hr) hnot hlast
        · cases h
          exact hmeaning

/-- A look-up that is unfinished when another one fails has no entry in the table that is left. -/
theorem Unfinished.not_mem {a : Lookup} {chain : List Lookup} (h : definitions.Unfinished a chain) :
    ∀ b ∈ chain, b.name ∉ (definitions.resolve a.resolving a.name a.table).2 := by
  induction h with
  | @met a missing defined hopen =>
    intro b hb
    obtain rfl := List.mem_singleton.mp hb
    rwa [resolve_of_open missing defined hopen]
  | @inner a b chain step rest ih =>
    obtain ⟨last, -, -, -, hrun⟩ := rest.resolve_eq
    rw [step.resolve_eq_error hrun]
    rw [hrun] at ih
    intro c hc
    obtain rfl | hc := List.mem_cons.mp hc
    · cases step with
      | @intro resolving name memo mid body before after use values missing defined hnew order earlier =>
        have hbefore := LeavesSound.mapM
          (fun use memo hmemo => resolve_leavesSound hmemo (name :: resolving) use) before
          (Sound.refl definitions memo)
        rw [earlier] at hbefore
        have hmid := hbefore.opened name List.mem_cons_self missing
        have hlast := resolve_leavesSound (Sound.refl definitions mid) (name :: resolving) use
        rw [hrun] at hlast
        exact hlast.opened name List.mem_cons_self hmid
    · exact ih c hc

end Definitions

/-- A look-up takes names in and out of those being resolved, and has the same ones in the end, whatever
it came to. When it fails, every entry is kept, every new one is the meaning of a defined name that
reaches no cycle, and no name has one whose formula was being evaluated when the failure came up, from
the name that was asked for to the one that is reported. -/
theorem failed_resolve_leaves_scope_sound (scope : Scope) (name : String) :
    scope.resolveMarking name = scope.resolve name ∧
    (scope.resolveMarking name).2.resolving = scope.resolving ∧
    ∀ other, (scope.resolve name).1 = .error (.circular other) →
      (∀ (term : String) (value : Value), scope.table[term]? = some value →
        (scope.resolve name).2.table[term]? = some value) ∧
      (∀ (term : String) (value : Value), (scope.resolve name).2.table[term]? = some value →
        term ∉ scope.table → term ∈ scope.definitions ∧ scope.definitions.Acyclic scope.table term ∧
          scope.definitions.Denotes scope.table term value) ∧
      (∃ chain, scope.definitions.Unfinished ⟨scope.resolving, name, scope.table⟩ chain) ∧
      ∀ chain, scope.definitions.Unfinished ⟨scope.resolving, name, scope.table⟩ chain →
        chain.getLast?.map (·.name) = some other ∧
        ∀ b ∈ chain, b.name ∉ (scope.resolve name).2.table := by
  have hsame := scope.resolveMarking_eq_resolve name
  refine ⟨hsame, by rw [hsame]; rfl, fun other hfail => ?_⟩
  have hsound := Definitions.resolve_leavesSound
    (Definitions.Sound.refl scope.definitions scope.table) scope.resolving name
  rcases hrun : scope.definitions.resolve scope.resolving name scope.table with ⟨outcome, memo⟩
  rw [Scope.resolve_eq_leave, hrun] at hfail ⊢
  obtain rfl : outcome = .error (.circular other) := hfail
  rw [hrun] at hsound
  refine ⟨hsound.sound.kept, fun term value hvalue hterm => ?_, ?_, fun chain hchain => ⟨?_, ?_⟩⟩
  · obtain ⟨hdefined, hmeaning⟩ := hsound.sound.added term value hvalue hterm
    exact ⟨hdefined, hmeaning.acyclic, hmeaning⟩
  · exact Definitions.exists_unfinished hrun
  · obtain ⟨last, hlast, -, -, hreported⟩ := hchain.resolve_eq
    rw [hrun] at hreported
    cases hreported
    rw [hlast]
    rfl
  · have hmissing := hchain.not_mem
    rw [hrun] at hmissing
    exact hmissing

end Tariff
