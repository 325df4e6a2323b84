import Mathlib.Tactic.Lemma
import Tariff.Evaluation

/-!
# Formulas as sequences of look-ups

`Formula.evalM` looks up the names of a formula in source order, once for each time they occur, and
puts the values together afterwards. `Formula.evalM_eq_mapM` says so for every lawful monad, so
that what holds of one look-up after another holds of a whole formula without going through its
syntax again.
-/

namespace Tariff

namespace Formula

variable {l : Level}

/-- The texts of the names in a formula, in source order and with repetitions. -/
def uses (f : Formula l) : List String :=
  f.names.map (·.text)

/-- The value of a formula where every name stands for a value. -/
def value (ρ : String → Value) : {l : Level} → Formula l → Value
  | _, .operand x => x.value ρ
  | _, .link left op right => op.apply (left.value ρ) (right.value ρ)
  | _, .plain x => x.value ρ
  | _, .compare left op right => op.apply (left.value ρ) (right.value ρ)
  | _, .factor none x => x.value ρ
  | _, .factor (some op) x => op.apply (x.value ρ)
  | _, .number word => .number ((readNumber? word.text.toList).getD notANumber)
  | _, .boolean b _ => .boolean b
  | _, .parentheses x => x.value ρ
  | _, .conditional condition yes no =>
    if (condition.value ρ).truthy then yes.value ρ else no.value ρ
  | _, .name word => ρ word.text

/-- The value of a formula from one value for each name in it, in source order. -/
def combine : {l : Level} → Formula l → List Value → Value
  | _, .operand x, values => x.combine values
  | _, .link left op right, values =>
    op.apply (left.combine (values.take left.uses.length))
      (right.combine (values.drop left.uses.length))
  | _, .plain x, values => x.combine values
  | _, .compare left op right, values =>
    op.apply (left.combine (values.take left.uses.length))
      (right.combine (values.drop left.uses.length))
  | _, .factor none x, values => x.combine values
  | _, .factor (some op) x, values => op.apply (x.combine values)
  | _, .number word, _ => .number ((readNumber? word.text.toList).getD notANumber)
  | _, .boolean b _, _ => .boolean b
  | _, .parentheses x, values => x.combine values
  | _, .conditional condition yes no, values =>
    let branches := values.drop condition.uses.length
    if (condition.combine (values.take condition.uses.length)).truthy then
      yes.combine (branches.take yes.uses.length)
    else no.combine (branches.drop yes.uses.length)
  | _, .name word, values => values.headD (.text word.text)

section Uses

variable {c : Chain}

@[simp] lemma uses_operand (x : Formula c.operand) : (operand x).uses = x.uses := rfl

@[simp] lemma uses_link (left : Formula (.chain c)) (op : Connective c) (right : Formula c.operand) :
    (link left op right).uses = left.uses ++ right.uses :=
  List.map_append

@[simp] lemma uses_plain (x : Formula (.chain .sum)) : (plain x).uses = x.uses := rfl

@[simp] lemma uses_compare (left : Formula (.chain .sum)) (op : Comparison)
    (right : Formula .comparison) : (compare left op right).uses = left.uses ++ right.uses :=
  List.map_append

@[simp] lemma uses_factor (op : Option Unary) (x : Formula .atom) : (factor op x).uses = x.uses := rfl

@[simp] lemma uses_number (word : Terminal) : (number word).uses = [] := rfl

@[simp] lemma uses_boolean (b : Bool) (location : Location) : (boolean b location).uses = [] := rfl

@[simp] lemma uses_parentheses (x : Expression) : (parentheses x).uses = x.uses := rfl

@[simp] lemma uses_conditional (condition yes no : Expression) :
    (conditional condition yes no).uses = condition.uses ++ yes.uses ++ no.uses := by
  have hbranches : (condition.names ++ yes.names).map (·.text) = condition.uses ++ yes.uses :=
    List.map_append
  rw [← hbranches]
  exact List.map_append

@[simp] lemma uses_name (word : Terminal) : (name word).uses = [word.text] := rfl

end Uses

section Order

variable {m : Type → Type} [Monad m] [LawfulMonad m] {α β γ : Type}

/-- What follows a sequence of look-ups only meets lists of its length. -/
lemma mapM_bind_congr (f : α → m β) (xs : List α) {g g' : List β → m γ}
    (h : ∀ ys, ys.length = xs.length → g ys = g' ys) : xs.mapM f >>= g = xs.mapM f >>= g' := by
  induction xs generalizing g g' with
  | nil =>
    simp only [List.mapM_nil, pure_bind]
    exact h [] rfl
  | cons x xs ih =>
    simp only [List.mapM_cons, bind_assoc, pure_bind]
    congr 1
    funext y
    exact ih fun ys hys => h (y :: ys) (by simp [hys])

/-- Two sequences of look-ups are put together from their own parts of the values. -/
lemma mapM_append_bind (f : α → m β) (xs ys : List α) (g : List β → List β → m γ) :
    ((xs ++ ys).mapM f >>= fun zs => g (zs.take xs.length) (zs.drop xs.length)) =
      xs.mapM f >>= fun as => ys.mapM f >>= fun bs => g as bs := by
  simp only [List.mapM_append, bind_assoc, pure_bind]
  apply mapM_bind_congr
  intro as has
  simp [← has]

/-- The value of a formula comes from one look-up for each name in it, in source order. -/
theorem evalM_eq_mapM (lookup : String → m Value) (f : Formula l) :
    f.evalM lookup = f.uses.mapM lookup >>= fun values => pure (f.combine values) := by
  induction f with
  | operand x ih => simp only [evalM, uses_operand, combine, ih]
  | link left op right ihl ihr =>
    simp only [evalM, uses_link, combine, ihl, ihr, bind_assoc, pure_bind]
    rw [mapM_append_bind lookup left.uses right.uses
      fun as bs => pure (op.apply (left.combine as) (right.combine bs))]
  | plain x ih => simp only [evalM, uses_plain, combine, ih]
  | compare left op right ihl ihr =>
    simp only [evalM, uses_compare, combine, ihl, ihr, bind_assoc, pure_bind]
    rw [mapM_append_bind lookup left.uses right.uses
      fun as bs => pure (op.apply (left.combine as) (right.combine bs))]
  | factor op x ih =>
    cases op with
    | none => simp only [evalM, uses_factor, combine, ih]
    | some op => simp only [evalM, uses_factor, combine, ih, bind_assoc, pure_bind]
  | number word => simp only [evalM, uses_number, combine, List.mapM_nil, pure_bind]
  | boolean b location => simp only [evalM, uses_boolean, combine, List.mapM_nil, pure_bind]
  | parentheses x ih => simp only [evalM, uses_parentheses, combine, ih]
  | conditional condition yes no ihc ihy ihn =>
    simp only [evalM, uses_conditional, combine, ihc, ihy, ihn, bind_assoc, pure_bind]
    rw [List.append_assoc, mapM_append_bind lookup condition.uses (yes.uses ++ no.uses)
      fun as bs => pure (if (condition.combine as).truthy then yes.combine (bs.take yes.uses.length)
        else no.combine (bs.drop yes.uses.length))]
    congr 1
    funext as
    rw [mapM_append_bind lookup yes.uses no.uses
      fun bs cs => pure (if (condition.combine as).truthy then yes.combine bs else no.combine cs)]
  | name word => simp only [evalM, uses_name, combine, List.mapM_cons, List.mapM_nil, pure_bind,
      bind_assoc, List.headD_cons, bind_pure]

end Order

/-- Where every name stands for a value, the values of its names are those. -/
theorem combine_map (ρ : String → Value) (f : Formula l) :
    f.combine (f.uses.map ρ) = f.value ρ := by
  induction f with
  | operand x ih => simp only [uses_operand, combine, value, ih]
  | link left op right ihl ihr =>
    simp only [uses_link, List.map_append, combine, value]
    rw [List.take_left' (by simp), List.drop_left' (by simp), ihl, ihr]
  | plain x ih => simp only [uses_plain, combine, value, ih]
  | compare left op right ihl ihr =>
    simp only [uses_compare, List.map_append, combine, value]
    rw [List.take_left' (by simp), List.drop_left' (by simp), ihl, ihr]
  | factor op x ih =>
    cases op with
    | none => simp only [uses_factor, combine, value, ih]
    | some op => simp only [uses_factor, combine, value, ih]
  | number word => simp only [combine, value]
  | boolean b location => simp only [combine, value]
  | parentheses x ih => simp only [uses_parentheses, combine, value, ih]
  | conditional condition yes no ihc ihy ihn =>
    simp only [uses_conditional, List.append_assoc, List.map_append, combine, value]
    rw [List.take_left' (by simp), List.drop_left' (by simp), List.take_left' (by simp),
      List.drop_left' (by simp), ihc, ihy, ihn]
  | name word => simp only [uses_name, List.map_cons, List.map_nil, combine, value, List.headD_cons]

end Formula

end Tariff
