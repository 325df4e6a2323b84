import Tariff.Proofs.Recompute

/-!
# The table as a memory

`Definitions.resolve` enters what it has computed into the table and reads it again later. A run
keeps the invariant `Definitions.Memo`: what was added is the meaning of a defined name, and
everything that an added name refers to was added too. Under it a run gives exactly what evaluation
without a memory gives (`resolve_faithful`), so that the memory can be forgotten in every question
about values and failures.
-/

namespace Tariff

namespace Definitions

variable {definitions : Definitions} {table memo : Table} {resolving : List String}
  {name use other : String} {value : Value} {body : Expression}

/-- The value that an evaluation gives is entered under a name. -/
def enterValue (name : String) :
    Except EvalError Value × Table → Except EvalError Value × Table
  | (.ok value, memo) => (.ok value, memo.insert name value)
  | (.error e, memo) => (.error e, memo)

lemma resolve_of_entry (entry : memo[name]? = some value) :
    definitions.resolve resolving name memo = (.ok value, memo) := by
  rw [resolve, entry]

lemma resolve_of_free (missing : name ∉ memo) (undefined : name ∉ definitions) :
    definitions.resolve resolving name memo = (.ok (.text name), memo) := by
  rw [resolve, getElem?_eq_none_of_not_mem missing]
  dsimp only
  split
  · rfl
  · next defined => exact (undefined (mem_of_getElem?_eq_some defined)).elim

lemma resolve_of_open (missing : name ∉ memo) (defined : name ∈ definitions)
    (hopen : name ∈ resolving) :
    definitions.resolve resolving name memo = (.error (.circular name), memo) := by
  rw [resolve, getElem?_eq_none_of_not_mem missing]
  dsimp only
  split
  · next undefined =>
    rw [Std.ExtTreeMap.mem_iff_isSome_getElem?, undefined] at defined
    cases defined
  · rw [dif_pos hopen]

lemma resolve_of_body (missing : name ∉ memo) (defined : definitions[name]? = some body)
    (hnew : name ∉ resolving) : definitions.resolve resolving name memo =
      enterValue name
        (body.evalM (fun inner => definitions.resolve (name :: resolving) inner) memo) := by
  rw [resolve, getElem?_eq_none_of_not_mem missing]
  dsimp only
  split
  · next undefined =>
    rw [undefined] at defined
    cases defined
  · next body' defined' =>
    rw [defined] at defined'
    obtain rfl := Option.some.inj defined'
    rw [dif_neg hnew]
    rfl

/-- What was known is still known, and what was added is the meaning of a defined name. -/
structure Sound (definitions : Definitions) (table memo : Table) : Prop where
  kept : ∀ (name : String) (value : Value), table[name]? = some value → memo[name]? = some value
  added : ∀ (name : String) (value : Value), memo[name]? = some value → name ∉ table →
    name ∈ definitions ∧ definitions.Denotes table name value

lemma Sound.refl (definitions : Definitions) (table : Table) : definitions.Sound table table where
  kept _ _ h := h
  added _ _ h h' := (h' (mem_of_getElem?_eq_some h)).elim

namespace Sound

lemma not_mem_table (h : definitions.Sound table memo) (missing : name ∉ memo) : name ∉ table := by
  intro hname
  obtain ⟨v, hv⟩ := exists_getElem?_of_mem hname
  exact missing (mem_of_getElem?_eq_some (h.kept name v hv))

lemma denotes (h : definitions.Sound table memo) (entry : memo[name]? = some value) :
    definitions.Denotes table name value := by
  by_cases hname : name ∈ table
  · obtain ⟨known, hknown⟩ := exists_getElem?_of_mem hname
    obtain rfl := Option.some.inj (entry.symm.trans (h.kept name known hknown))
    exact .known hknown
  · exact (h.added name value entry hname).2

lemma mem_definitions (h : definitions.Sound table memo) (hmem : name ∈ memo) (hnew : name ∉ table) :
    name ∈ definitions := by
  obtain ⟨v, hv⟩ := exists_getElem?_of_mem hmem
  exact (h.added name v hv hnew).1

lemma insert (h : definitions.Sound table memo) (missing : name ∉ memo) (defined : name ∈ definitions)
    (meaning : definitions.Denotes table name value) :
    definitions.Sound table (memo.insert name value) where
  kept other v hv := getElem?_insert_of_not_mem missing (h.kept other v hv)
  added other v hv hother := by
    rw [getElem?_insert_name] at hv
    by_cases hne : name = other
    · subst hne
      rw [if_pos rfl] at hv
      obtain rfl := Option.some.inj hv
      exact ⟨defined, meaning⟩
    · rw [if_neg hne] at hv
      exact h.added other v hv hother

end Sound

/-- The table of a run that started from `table`, while the formulas of `resolving` are being
evaluated. -/
structure Memo (definitions : Definitions) (table : Table) (resolving : List String)
    (memo : Table) : Prop extends Sound definitions table memo where
  closed : ∀ name ∈ memo, ∀ use, definitions.RefersTo table name use →
    use ∈ memo ∨ use ∉ definitions
  opened : ∀ name ∈ resolving, name ∈ definitions ∧ name ∉ memo

/-- Every run starts with what is known. -/
lemma Memo.initial (definitions : Definitions) (table : Table) : definitions.Memo table [] table where
  toSound := .refl definitions table
  closed _ h _ hstep := (hstep.1 h).elim
  opened := by simp

namespace Memo

/-- Everything that is reached from an added name was added too. -/
lemma mem_of_reaches (h : definitions.Memo table resolving memo)
    (hname : name ∈ memo ∨ name ∉ definitions) (hreach : definitions.Reaches table name other) :
    other ∈ memo ∨ other ∉ definitions := by
  induction hreach with
  | refl => exact hname
  | tail _ hstep ih =>
    rcases ih with hmid | hmid
    · exact h.closed _ hmid _ hstep
    · exact (hmid hstep.mem_definitions).elim

/-- An entry is what evaluation without a memory gives. -/
lemma recompute_eq (h : definitions.Memo table resolving memo) (entry : memo[name]? = some value) :
    definitions.recompute table resolving name = .ok value := by
  apply recompute_of_denotes (h.denotes entry)
  intro other hopen hreach
  obtain ⟨hdefined, hmissing⟩ := h.opened other hopen
  rcases h.mem_of_reaches (.inl (mem_of_getElem?_eq_some entry)) hreach with hmem | hundefined
  · exact hmissing hmem
  · exact hundefined hdefined

/-- The formula of one more name is evaluated. -/
lemma open_name (h : definitions.Memo table resolving memo) (hdefined : name ∈ definitions)
    (hmissing : name ∉ memo) : definitions.Memo table (name :: resolving) memo where
  toSound := h.toSound
  closed := h.closed
  opened := by
    intro other hother
    obtain rfl | hother := List.mem_cons.mp hother
    · exact ⟨hdefined, hmissing⟩
    · exact h.opened other hother

lemma of_cons (h : definitions.Memo table (name :: resolving) memo) :
    definitions.Memo table resolving memo where
  toSound := h.toSound
  closed := h.closed
  opened other hother := h.opened other (List.mem_cons_of_mem name hother)

/-- The value of a name whose formula has been evaluated is added. -/
lemma insert_value (h : definitions.Memo table (name :: resolving) memo) (hnew : name ∉ resolving)
    (hmeaning : definitions.Denotes table name value)
    (huses : ∀ use, definitions.RefersTo table name use → use ∈ memo ∨ use ∉ definitions) :
    definitions.Memo table resolving (memo.insert name value) where
  toSound :=
    have ⟨hdefined, hmissing⟩ := h.opened name List.mem_cons_self
    h.toSound.insert hmissing hdefined hmeaning
  closed := by
    intro other hother use hstep
    have hold : use ∈ memo ∨ use ∉ definitions := by
      rcases mem_insert_name.mp hother with rfl | hother
      · exact huses use hstep
      · exact h.closed other hother use hstep
    exact hold.imp_left fun huse => mem_insert_name.mpr (.inr huse)
  opened := by
    intro other hother
    obtain ⟨hdefined, hmissing⟩ := h.opened other (List.mem_cons_of_mem name hother)
    refine ⟨hdefined, fun hmem => ?_⟩
    rcases mem_insert_name.mp hmem with rfl | hmem
    · exact hnew hother
    · exact hmissing hmem

end Memo

/-! ### A run is faithful -/

/-- A run from `memo` that looks up some names gives what is expected, keeps the invariant and all
entries, adds only what these names reach, and when it succeeds leaves no formula of theirs
unevaluated. -/
structure Faithful {α : Type} (definitions : Definitions) (table : Table) (resolving : List String)
    (names : List String) (memo : Table) (expected : Except EvalError α)
    (run : Except EvalError α × Table) : Prop where
  outcome : run.1 = expected
  invariant : definitions.Memo table resolving run.2
  kept : ∀ (other : String) (value : Value), memo[other]? = some value → run.2[other]? = some value
  reached : ∀ other ∈ run.2, other ∉ memo → ∃ name ∈ names, definitions.Reaches table name other
  settled : ∀ a, run.1 = .ok a → ∀ name ∈ names, name ∈ run.2 ∨ name ∉ definitions

namespace Faithful

variable {α β : Type} {names : List String} {expected : Except EvalError α}
  {run : Except EvalError α × Table}

/-- A run that leaves the table as it is. -/
lemma unchanged (h : definitions.Memo table resolving memo) (houtcome : run = (expected, memo))
    (hsettled : ∀ a, expected = .ok a → ∀ name ∈ names, name ∈ memo ∨ name ∉ definitions) :
    definitions.Faithful table resolving names memo expected run := by
  subst houtcome
  exact ⟨rfl, h, fun _ _ hv => hv, fun _ hmem hmissing => (hmissing hmem).elim, hsettled⟩

lemma mem_kept (h : definitions.Faithful table resolving names memo expected run)
    (hother : other ∈ memo) : other ∈ run.2 := by
  obtain ⟨v, hv⟩ := exists_getElem?_of_mem hother
  exact mem_of_getElem?_eq_some (h.kept other v hv)

lemma reached_name (h : definitions.Faithful table resolving [name] memo expected run)
    (hmem : other ∈ run.2) (hmissing : other ∉ memo) : definitions.Reaches table name other := by
  obtain ⟨root, hroot, hreach⟩ := h.reached other hmem hmissing
  obtain rfl := List.mem_singleton.mp hroot
  exact hreach

/-- What a look-up and the ones after it have added is reached from one of the names. -/
lemma reached_cons {rest : Except EvalError β × Table} {expected' : Except EvalError β}
    (h : definitions.Faithful table resolving [name] memo expected run)
    (hrest : definitions.Faithful table resolving names run.2 expected' rest)
    (hmem : other ∈ rest.2) (hmissing : other ∉ memo) :
    ∃ root ∈ name :: names, definitions.Reaches table root other := by
  by_cases hmid : other ∈ run.2
  · exact ⟨name, List.mem_cons_self, h.reached_name hmid hmissing⟩
  · obtain ⟨root, hroot, hreach⟩ := hrest.reached other hmem hmid
    exact ⟨root, List.mem_cons_of_mem name hroot, hreach⟩

/-- Looking names up one after another is faithful if each look-up is. -/
lemma mapM {lookup : String → Evaluation Value} {plain : String → Except EvalError Value}
    (hlookup : ∀ name memo, definitions.Memo table resolving memo →
      definitions.Faithful table resolving [name] memo (plain name) (lookup name memo))
    (names : List String) (hmemo : definitions.Memo table resolving memo) :
    definitions.Faithful table resolving names memo (names.mapM plain) (names.mapM lookup memo) := by
  refine Attempt.mapM_induction (motive := fun names memo run => definitions.Memo table resolving memo →
    definitions.Faithful table resolving names memo (names.mapM plain) run) ?nil ?error ?cons names memo hmemo
  case nil =>
    intro memo hmemo
    exact unchanged hmemo rfl (by simp)
  case error =>
    intro name names memo e last hrun hmemo
    have hfirst := hlookup name memo hmemo
    rw [hrun] at hfirst
    rw [List.mapM_cons, ← hfirst.outcome]
    exact ⟨rfl, hfirst.invariant, hfirst.kept, fun other hmem hmissing =>
      ⟨name, List.mem_cons_self, hfirst.reached_name hmem hmissing⟩, fun _ h => by cases h⟩
  case cons =>
    intro name names memo v mid outcome last hrun ih hmemo
    have hfirst := hlookup name memo hmemo
    rw [hrun] at hfirst
    have hrest := ih hfirst.invariant
    have hexpected : (name :: names).mapM plain = (names.mapM plain).map (v :: ·) := by
      rw [List.mapM_cons, ← hfirst.outcome]
      cases names.mapM plain <;> rfl
    refine ⟨?_, hrest.invariant, fun other value hv => hrest.kept other value (hfirst.kept _ _ hv),
      fun _ hmem => hfirst.reached_cons hrest hmem, fun _ hok root hroot => ?_⟩
    · rw [hexpected, ← hrest.outcome]
    · obtain rfl | hroot := List.mem_cons.mp hroot
      · have hname := hfirst.settled v rfl root List.mem_cons_self
        exact hname.imp_left fun hmem => hrest.mem_kept hmem
      · cases outcome with
        | error e => cases hok
        | ok vs => exact hrest.settled vs rfl root hroot

/-- What is made of the result does not matter. -/
lemma bind_pure_comp {computation : Evaluation α} (f : α → β)
    (h : definitions.Faithful table resolving names memo expected (computation memo)) :
    definitions.Faithful table resolving names memo (expected >>= fun a => pure (f a))
      ((computation >>= fun a => pure (f a)) memo) := by
  rcases hrun : computation memo with ⟨e | a, memo'⟩
  · rw [hrun] at h
    rw [Attempt.bind_of_error hrun, ← h.outcome]
    exact ⟨rfl, h.invariant, h.kept, h.reached, fun _ h => by cases h⟩
  · rw [hrun] at h
    rw [Attempt.bind_of_ok hrun, ← h.outcome]
    exact ⟨rfl, h.invariant, h.kept, h.reached, fun _ _ => h.settled a rfl⟩

/-- Evaluating a formula is faithful if each look-up is. -/
lemma evalM {lookup : String → Evaluation Value} {plain : String → Except EvalError Value}
    (hlookup : ∀ name memo, definitions.Memo table resolving memo →
      definitions.Faithful table resolving [name] memo (plain name) (lookup name memo))
    (body : Expression) (hmemo : definitions.Memo table resolving memo) :
    definitions.Faithful table resolving body.uses memo (body.evalM plain)
      (body.evalM lookup memo) := by
  rw [Formula.evalM_eq_mapM, Formula.evalM_eq_mapM]
  exact bind_pure_comp body.combine (mapM hlookup body.uses hmemo)

/-- The value of an evaluated formula is entered under its name. -/
lemma enter {run : Except EvalError Value × Table} (missing : name ∉ table)
    (defined : definitions[name]? = some body)
    (hnew : name ∉ resolving)
    (h : definitions.Faithful table (name :: resolving) body.uses memo
      (definitions.recompute table resolving name) run) :
    definitions.Faithful table resolving [name] memo (definitions.recompute table resolving name)
      (enterValue name run) := by
  have hreached : ∀ other ∈ run.2, other ∉ memo →
      ∃ root ∈ [name], definitions.Reaches table root other := by
    intro other hmem hmissing
    obtain ⟨use, huse, hreach⟩ := h.reached other hmem hmissing
    exact ⟨name, List.mem_singleton_self name, .head (refersTo_of_use missing defined huse) hreach⟩
  rcases run with ⟨e | v, memo'⟩
  · exact ⟨h.outcome, h.invariant.of_cons, h.kept, hreached, fun _ h => by cases h⟩
  · have hmeaning := denotes_of_recompute_eq_ok h.outcome.symm
    have hmemo := h.invariant.insert_value hnew hmeaning fun use hstep =>
      h.settled v rfl use (hstep.mem_uses defined)
    have hmissing := (h.invariant.opened name List.mem_cons_self).2
    refine ⟨h.outcome, hmemo, fun other w hw => getElem?_insert_of_not_mem hmissing (h.kept other w hw),
      fun other hmem hmissing => ?_, fun _ _ root hroot => ?_⟩
    · rcases mem_insert_name.mp hmem with rfl | hmem
      · exact ⟨name, List.mem_singleton_self name, .refl⟩
      · exact hreached other hmem hmissing
    · obtain rfl := List.mem_singleton.mp hroot
      exact .inl (mem_insert_name.mpr (.inl rfl))

end Faithful

/-- A look-up with a memory gives what evaluation without one gives. -/
theorem resolve_faithful (hmemo : definitions.Memo table resolving memo) (name : String) :
    definitions.Faithful table resolving [name] memo (definitions.recompute table resolving name)
      (definitions.resolve resolving name memo) := by
  induction resolving using definitions.opening_induction generalizing name memo with
  | step resolving ih =>
    obtain ⟨v, entry⟩ | ⟨missing, undefined⟩ | ⟨missing, defined, hopen⟩ |
      ⟨body, missing, defined, hnew⟩ := definitions.meeting_cases memo resolving name
    · rw [hmemo.recompute_eq entry]
      apply Faithful.unchanged hmemo (resolve_of_entry entry)
      intro _ _ root hroot
      obtain rfl := List.mem_singleton.mp hroot
      exact .inl (mem_of_getElem?_eq_some entry)
    · rw [recompute_of_free (hmemo.not_mem_table missing) undefined]
      apply Faithful.unchanged hmemo (resolve_of_free missing undefined)
      intro _ _ root hroot
      obtain rfl := List.mem_singleton.mp hroot
      exact .inr undefined
    · rw [recompute_of_open (hmemo.not_mem_table missing) defined hopen]
      exact Faithful.unchanged hmemo (resolve_of_open missing defined hopen) (by simp)
    · have hname := mem_of_getElem?_eq_some defined
      have hbody := recompute_of_body (hmemo.not_mem_table missing) defined hnew
      rw [resolve_of_body missing defined hnew]
      apply Faithful.enter (hmemo.not_mem_table missing) defined hnew
      rw [hbody]
      exact Faithful.evalM (fun inner _ hinner => ih name hname hnew hinner inner) body
        (hmemo.open_name hname missing)

end Definitions

end Tariff
