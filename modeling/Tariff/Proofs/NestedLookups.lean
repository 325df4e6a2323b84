import Mathlib.Data.List.Chain
import Tariff.Proofs.Memo

/-!
# Look-ups inside look-ups

While the formula of a name is evaluated, the names in it are looked up one after another, each with
the table that the ones before it have left. `Definitions.Asks` relates a look-up to those that it
makes itself. They are nested no deeper than there are definitions, and a look-up that succeeds
has met every name that it reaches.
-/

namespace Tariff

/-- A look-up: a name, the names whose formulas are being evaluated, and the table. -/
structure Lookup where
  resolving : List String
  name : String
  table : Table

namespace Definitions

/-- Evaluating the formula of a name makes another look-up, after those before it succeeded. -/
inductive Asks (definitions : Definitions) : Lookup → Lookup → Prop
  | intro {resolving : List String} {name : String} {memo memo' : Table} {body : Expression}
      {before after : List String} {use : String} {values : List Value} (missing : name ∉ memo)
      (defined : definitions[name]? = some body) (hnew : name ∉ resolving)
      (order : body.uses = before ++ use :: after)
      (earlier : before.mapM (definitions.resolve (name :: resolving)) memo = (.ok values, memo')) :
      Asks definitions ⟨resolving, name, memo⟩ ⟨name :: resolving, use, memo'⟩

/-- A look-up made by another one, at any depth. -/
def Meets (definitions : Definitions) : Lookup → Lookup → Prop :=
  Relation.ReflTransGen definitions.Asks

variable {definitions : Definitions} {table memo memo' : Table} {resolving : List String}
  {name use other : String} {value : Value} {body : Expression} {a b : Lookup}

lemma Asks.unopened_lt (h : definitions.Asks a b) :
    definitions.unopened b.resolving < definitions.unopened a.resolving := by
  cases h with
  | intro _ defined hnew => exact unopened_cons_lt (mem_of_getElem?_eq_some defined) hnew

/-- Look-ups are nested no deeper than there are definitions without a formula under evaluation. -/
theorem length_le_unopened {inner : List Lookup} (h : (a :: inner).IsChain definitions.Asks) :
    inner.length ≤ definitions.unopened a.resolving := by
  induction inner generalizing a with
  | nil => exact Nat.zero_le _
  | cons b inner ih =>
    obtain ⟨hstep, hrest⟩ := List.isChain_cons_cons.mp h
    have hlt := hstep.unopened_lt
    have hle := ih hrest
    simp only [List.length_cons]
    omega

lemma unopened_nil (definitions : Definitions) : definitions.unopened [] = definitions.size := by
  have hall : definitions.keys.filter (· ∉ ([] : List String)) = definitions.keys :=
    List.filter_eq_self.mpr (by simp)
  rw [unopened, hall, Std.ExtTreeMap.length_keys]

lemma Asks.invariant (h : definitions.Asks a b)
    (hmemo : definitions.Memo table a.resolving a.table) :
    definitions.RefersTo table a.name b.name ∧ definitions.Memo table b.resolving b.table := by
  cases h with
  | @intro resolving name memo memo' body before after use values missing defined hnew order earlier =>
    have huse : use ∈ body.uses := by
      rw [order]
      exact List.mem_append_right before List.mem_cons_self
    have hopen := hmemo.open_name (mem_of_getElem?_eq_some defined) missing
    have hrun := Faithful.mapM (fun inner memo hinner => resolve_faithful hinner inner) before hopen
    rw [earlier] at hrun
    exact ⟨refersTo_of_use (hmemo.not_mem_table missing) defined huse, hrun.invariant⟩

theorem Meets.invariant (h : definitions.Meets a b)
    (hmemo : definitions.Memo table a.resolving a.table) :
    definitions.Reaches table a.name b.name ∧ definitions.Memo table b.resolving b.table := by
  induction h with
  | refl => exact ⟨.refl, hmemo⟩
  | tail _ hstep ih =>
    obtain ⟨hreach, hmid⟩ := ih
    obtain ⟨hrefers, hlast⟩ := hstep.invariant hmid
    exact ⟨hreach.tail hrefers, hlast⟩

section Sequences

variable {lookup : String → Evaluation Value} {names before after : List String}
  {values : List Value}

/-- A sequence of look-ups that succeeds has succeeded up to each of them. -/
lemma exists_prefix_of_mapM (h : (before ++ use :: after).mapM lookup memo = (.ok values, memo')) :
    ∃ earlier mid, before.mapM lookup memo = (.ok earlier, mid) := by
  rcases hbefore : before.mapM lookup memo with ⟨e | earlier, mid⟩
  · rw [List.mapM_append, Attempt.bind_of_error hbefore] at h
    cases h
  · exact ⟨earlier, mid, rfl⟩

/-- What a sequence of look-ups has added was added by one of them. -/
lemma exists_adding_of_mapM (h : names.mapM lookup memo = (.ok values, memo')) (hother : other ∈ memo')
    (hmissing : other ∉ memo) : ∃ before use after earlier mid value mid',
      names = before ++ use :: after ∧ before.mapM lookup memo = (.ok earlier, mid) ∧ other ∉ mid ∧
        lookup use mid = (.ok value, mid') ∧ other ∈ mid' := by
  induction names generalizing memo values with
  | nil =>
    cases h
    exact (hmissing hother).elim
  | cons name names ih =>
    obtain ⟨value, mid, vs, hname, hnames, rfl⟩ := Attempt.mapM_cons_eq_ok h
    by_cases hmid : other ∈ mid
    · exact ⟨[], name, names, [], memo, value, mid, rfl, rfl, hmissing, hname, hmid⟩
    · obtain ⟨before, use, after, earlier, mid₁, v, mid₂, rfl, hbefore, hnot, huse, hin⟩ :=
        ih hnames hmid
      refine ⟨name :: before, use, after, value :: earlier, mid₁, v, mid₂, rfl, ?_, hnot, huse, hin⟩
      rw [Attempt.mapM_cons_of_ok hname, hbefore]
      rfl

/-- A sequence of look-ups that fails has succeeded up to the one that failed. -/
lemma exists_failing_of_mapM {e : EvalError} (h : names.mapM lookup memo = (.error e, memo')) :
    ∃ before use after earlier mid mid', names = before ++ use :: after ∧
      before.mapM lookup memo = (.ok earlier, mid) ∧ lookup use mid = (.error e, mid') := by
  induction names generalizing memo with
  | nil => cases h
  | cons name names ih =>
    obtain hname | ⟨value, mid, hname, hnames⟩ := Attempt.mapM_cons_eq_error h
    · exact ⟨[], name, names, [], memo, _, rfl, rfl, hname⟩
    · obtain ⟨before, use, after, earlier, mid₁, mid₂, rfl, hbefore, huse⟩ := ih hnames
      refine ⟨name :: before, use, after, value :: earlier, mid₁, mid₂, rfl, ?_, huse⟩
      rw [Attempt.mapM_cons_of_ok hname, hbefore]
      rfl

end Sequences

/-- A look-up that succeeds and evaluates a formula has looked up every name in it. -/
theorem meets_of_added (hrun : definitions.resolve resolving name memo = (.ok value, memo'))
    (hother : other ∈ memo') (hmissing : other ∉ memo) (hbody : definitions[other]? = some body)
    (huse : use ∈ body.uses) : ∃ b, definitions.Meets ⟨resolving, name, memo⟩ b ∧ b.name = use := by
  induction resolving using definitions.opening_induction generalizing name memo memo' value with
  | step resolving ih =>
    obtain ⟨v, entry⟩ | ⟨missing, undefined⟩ | ⟨missing, defined, hopen⟩ |
      ⟨formula, missing, defined, hnew⟩ := definitions.meeting_cases memo resolving name
    · rw [resolve_of_entry entry] at hrun
      cases hrun
      exact (hmissing hother).elim
    · rw [resolve_of_free missing undefined] at hrun
      cases hrun
      exact (hmissing hother).elim
    · rw [resolve_of_open missing defined hopen] at hrun
      cases hrun
    · rw [resolve_of_body missing defined hnew, Formula.evalM_eq_mapM] at hrun
      rcases huses : formula.uses.mapM (definitions.resolve (name :: resolving)) memo with
        ⟨e | values, last⟩
      · rw [Attempt.bind_of_error huses] at hrun
        cases hrun
      · rw [Attempt.bind_of_ok huses] at hrun
        cases hrun
        rcases mem_insert_name.mp hother with rfl | hlast
        · obtain rfl := Option.some.inj (defined.symm.trans hbody)
          obtain ⟨before, after, horder⟩ := List.append_of_mem huse
          rw [horder] at huses
          obtain ⟨earlier, mid, hearlier⟩ := exists_prefix_of_mapM huses
          exact ⟨_, .single (.intro missing defined hnew horder hearlier), rfl⟩
        · obtain ⟨before, inner, after, earlier, mid, v, mid', horder, hearlier, hnot, hinner, hin⟩ :=
            exists_adding_of_mapM huses hlast hmissing
          obtain ⟨b, hmeets, hname⟩ :=
            ih name (mem_of_getElem?_eq_some defined) hnew hinner hin hnot
          exact ⟨b, .head (.intro missing defined hnew horder hearlier) hmeets, hname⟩

/-! ### What is unfinished at a failure -/

/-- The look-ups that are unfinished when one fails: itself, the one that fails inside it, and so on, up
to one that meets a name while the formula of that name is being evaluated. -/
inductive Unfinished (definitions : Definitions) : Lookup → List Lookup → Prop
  | met {a : Lookup} (missing : a.name ∉ a.table) (defined : a.name ∈ definitions)
      (hopen : a.name ∈ a.resolving) : Unfinished definitions a [a]
  | inner {a b : Lookup} {chain : List Lookup} (step : definitions.Asks a b)
      (rest : Unfinished definitions b chain) : Unfinished definitions a (a :: chain)

/-- A look-up that fails has left some unfinished. -/
lemma exists_unfinished {e : EvalError}
    (hrun : definitions.resolve resolving name memo = (.error e, memo')) :
    ∃ chain, definitions.Unfinished ⟨resolving, name, memo⟩ chain := by
  induction resolving using definitions.opening_induction generalizing name memo memo' with
  | step resolving ih =>
    obtain ⟨v, entry⟩ | ⟨missing, undefined⟩ | ⟨missing, defined, hopen⟩ |
      ⟨formula, missing, defined, hnew⟩ := definitions.meeting_cases memo resolving name
    · rw [resolve_of_entry entry] at hrun
      cases hrun
    · rw [resolve_of_free missing undefined] at hrun
      cases hrun
    · exact ⟨_, .met missing defined hopen⟩
    · rw [resolve_of_body missing defined hnew, Formula.evalM_eq_mapM] at hrun
      rcases huses : formula.uses.mapM (definitions.resolve (name :: resolving)) memo with
        ⟨e' | values, last⟩
      · rw [Attempt.bind_of_error huses] at hrun
        cases hrun
        obtain ⟨before, use, after, earlier, mid, mid', horder, hearlier, hfail⟩ :=
          exists_failing_of_mapM huses
        obtain ⟨chain, hchain⟩ := ih name (mem_of_getElem?_eq_some defined) hnew hfail
        exact ⟨_, .inner (.intro missing defined hnew horder hearlier) hchain⟩
      · rw [Attempt.bind_of_ok huses] at hrun
        cases hrun

/-- If a look-up inside another one fails, the other one fails in the same way and at once. -/
lemma Asks.resolve_eq_error {e : EvalError} (h : definitions.Asks a b)
    (hrun : definitions.resolve b.resolving b.name b.table = (.error e, memo')) :
    definitions.resolve a.resolving a.name a.table = (.error e, memo') := by
  cases h with
  | @intro resolving name memo mid body before after use values missing defined hnew order earlier =>
    have huses : body.uses.mapM (definitions.resolve (name :: resolving)) memo = (.error e, memo') := by
      rw [order, List.mapM_append, Attempt.bind_of_ok earlier, List.mapM_cons,
        Attempt.bind_of_error (Attempt.bind_of_error hrun _)]
    rw [resolve_of_body missing defined hnew, Formula.evalM_eq_mapM, Attempt.bind_of_error huses]
    rfl

/-- The last of the unfinished look-ups is the one whose name is reported. Nothing is looked up or
entered after it. -/
theorem Unfinished.resolve_eq {chain : List Lookup} (h : definitions.Unfinished a chain) :
    ∃ last, chain.getLast? = some last ∧ definitions.Meets a last ∧ last.name ∈ last.resolving ∧
      definitions.resolve a.resolving a.name a.table = (.error (.circular last.name), last.table) := by
  induction h with
  | @met a missing defined hopen => exact ⟨a, rfl, .refl, hopen, resolve_of_open missing defined hopen⟩
  | inner step _ ih =>
    obtain ⟨last, hlast, hmeets, hopen, hrun⟩ := ih
    refine ⟨last, ?_, .head step hmeets, hopen, step.resolve_eq_error hrun⟩
    rw [List.getLast?_cons, hlast, Option.getD_some]

/-- A look-up that fails has met the term that it names while the formula of that term was being
evaluated. -/
theorem meets_of_circular
    (hrun : definitions.resolve resolving name memo = (.error (.circular other), memo')) :
    ∃ b, definitions.Meets ⟨resolving, name, memo⟩ b ∧ b.name = other ∧ other ∈ b.resolving := by
  obtain ⟨chain, hchain⟩ := exists_unfinished hrun
  obtain ⟨last, -, hmeets, hopen, hfail⟩ := hchain.resolve_eq
  rw [hrun] at hfail
  obtain rfl : other = last.name := by cases hfail; rfl
  exact ⟨last, hmeets, rfl, hopen⟩

/-- A look-up that succeeds has looked up exactly the names that it reaches. -/
theorem meets_iff_reaches (hrun : definitions.resolve [] name table = (.ok value, memo)) :
    (∃ b, definitions.Meets ⟨[], name, table⟩ b ∧ b.name = other) ↔
      definitions.Reaches table name other := by
  have hfaithful := resolve_faithful (Memo.initial definitions table) name
  rw [hrun] at hfaithful
  have hname := hfaithful.settled value rfl name (List.mem_singleton_self name)
  constructor
  · rintro ⟨b, hmeets, rfl⟩
    exact (hmeets.invariant (Memo.initial definitions table)).1
  · intro hreach
    obtain rfl | ⟨last, hlast, hstep⟩ := Relation.ReflTransGen.cases_tail hreach
    · exact ⟨_, .refl, rfl⟩
    · obtain ⟨body, hbody, huse⟩ := hstep.2
      rcases hfaithful.invariant.mem_of_reaches hname hlast with hmem | hundefined
      · exact meets_of_added hrun hmem hstep.1 hbody huse
      · exact (hundefined hstep.mem_definitions).elim

end Definitions

end Tariff
