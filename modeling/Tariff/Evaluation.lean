import Tariff.Attempt
import Tariff.Value

/-!
# Evaluation

`Formula.evalM` is the value of a formula, given a way to look names up; it evaluates every part
once, in source order. `Definitions.resolve` is the look-up of a session: a name means its entry in
the table of known values, else the value of its formula, which is then entered into the table, else
the text of the name itself. The names whose formulas are being evaluated are passed down, and
meeting one of them again is an error. The table is kept when an evaluation fails.
-/

namespace Tariff

/-- Values by name: what was injected, and what was computed so far. -/
abbrev Table := Std.ExtTreeMap String Value

inductive EvalError where
  /-- The term was met again while its own formula was being evaluated. -/
  | circular (name : String)
deriving DecidableEq, Repr

def EvalError.message : EvalError → String
  | .circular name => "Term '" ++ name ++ "' has a circular definition."

/-- A computation that reads and changes the table. -/
abbrev Evaluation := Attempt EvalError Table

namespace Formula

/-- The value of a formula, where `lookup` gives the value of a name. Both sides of an operator and
all parts of a conditional are evaluated, from left to right. -/
def evalM {m : Type → Type} [Monad m] (lookup : String → m Value) :
    {l : Level} → Formula l → m Value
  | _, .operand x => x.evalM lookup
  | _, .link left op right => do
    let v ← left.evalM lookup
    let w ← right.evalM lookup
    return op.apply v w
  | _, .plain x => x.evalM lookup
  | _, .compare left op right => do
    let v ← left.evalM lookup
    let w ← right.evalM lookup
    return op.apply v w
  | _, .factor none x => x.evalM lookup
  | _, .factor (some op) x => do
    return op.apply (← x.evalM lookup)
  | _, .number word => return .number ((readNumber? word.text.toList).getD notANumber)
  | _, .boolean b _ => return .boolean b
  | _, .parentheses x => x.evalM lookup
  | _, .conditional condition yes no => do
    let c ← condition.evalM lookup
    let v ← yes.evalM lookup
    let w ← no.evalM lookup
    return if c.truthy then v else w
  | _, .name word => lookup word.text

end Formula

namespace Definitions

def unopened (definitions : Definitions) (resolving : List String) : Nat :=
  (definitions.keys.filter (· ∉ resolving)).length

theorem unopened_cons_lt {definitions : Definitions} {resolving : List String} {name : String}
    (hname : name ∈ definitions) (hnew : name ∉ resolving) :
    definitions.unopened (name :: resolving) < definitions.unopened resolving := by
  have hcons : definitions.keys.filter (· ∉ name :: resolving) =
      (definitions.keys.filter (· ∉ resolving)).filter (· ≠ name) := by
    simp [List.filter_filter, Bool.decide_and]
  rw [unopened, unopened, hcons, List.length_filter_lt_length_iff_exists]
  refine ⟨name, List.mem_filter.mpr ⟨Std.ExtTreeMap.mem_keys.mpr hname, by simpa using hnew⟩, ?_⟩
  simp

/-- The value of a name while the formulas of some names are being evaluated. -/
def resolve (definitions : Definitions) (resolving : List String) (name : String) :
    Evaluation Value := fun table =>
  match table[name]? with
  | some value => (.ok value, table)
  | none =>
    match _h : definitions[name]? with
    | none => (.ok (.text name), table)
    | some body =>
      if _hnew : name ∈ resolving then (.error (.circular name), table)
      else
        match body.evalM (fun inner => resolve definitions (name :: resolving) inner) table with
        | (.ok value, table) => (.ok value, table.insert name value)
        | (.error e, table) => (.error e, table)
termination_by definitions.unopened resolving
decreasing_by
  exact unopened_cons_lt (Std.ExtTreeMap.mem_iff_isSome_getElem?.mpr (by simp [_h])) _hnew

end Definitions

/-- A session of evaluation: the formulas, the table, and the names whose formulas are being
evaluated. -/
structure Scope where
  definitions : Definitions
  table : Table
  resolving : List String

namespace Scope

def ofTable (definitions : Definitions) (table : Table) : Scope :=
  ⟨definitions, table, []⟩

def resolve (scope : Scope) (name : String) : Except EvalError Value × Scope :=
  let (outcome, table) := scope.definitions.resolve scope.resolving name scope.table
  (outcome, { scope with table })

end Scope

/-- The value of a term of a document, and the table it leaves. -/
def Document.evaluate (d : Document) (name : String) (table : Table) :
    Except EvalError Value × Table :=
  d.definitionOf.resolve [] name table

end Tariff
