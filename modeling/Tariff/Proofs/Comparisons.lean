import Mathlib
import Tariff.Value

/-!
# Comparisons of values

Equality and order of values are two functions, and each treats some kinds of values on its own. They fit
together all the same: `Value.looseEq` holds just where `Value.looseCompare` finds two values equal, so
each of the six comparisons can be read off the order (`Comparison.holds_eq`). Whatever the kinds of two
values are, the comparisons agree with each other (`Comparison.apply_coherent`).
-/

namespace Tariff

section Doubles

open Float.Model

variable (x y : Float)

lemma unpacked_compare_swap (a b : UnpackedFloat) :
    b.compare a = (a.compare b).map Ordering.swap := by
  have hsize (m m' : ℕ) (e e' : ℤ) :
      (compare e' e).then (compare m' m) = ((compare e e').then (compare m m')).swap := by
    rw [Ordering.swap_then, ← Std.OrientedOrd.eq_swap, ← Std.OrientedOrd.eq_swap]
  rcases a with ⟨_ | _⟩ | _ | _ | ⟨_ | _, m, e, _⟩ <;>
    rcases b with ⟨_ | _⟩ | _ | _ | ⟨_ | _, m', e', _⟩ <;> try rfl
  · exact congrArg some (congrArg Ordering.swap (hsize m m' e e'))
  · exact congrArg some (hsize m m' e e')

lemma float_lt_iff : x < y ↔ x.toModel.unpack.compare y.toModel.unpack = some .lt :=
  decide_eq_true_iff.trans beq_iff_eq

lemma float_beq_iff : (x == y) = true ↔ x.toModel.unpack.compare y.toModel.unpack = some .eq := by
  change (x.toModel.unpack.compare y.toModel.unpack == some .eq) = true ↔ _
  exact beq_iff_eq

namespace Value

lemma compareNumbers_eq : compareNumbers x y = x.toModel.unpack.compare y.toModel.unpack := by
  have hswap := unpacked_compare_swap x.toModel.unpack y.toModel.unpack
  simp only [compareNumbers, float_lt_iff, float_beq_iff, hswap]
  rcases x.toModel.unpack.compare y.toModel.unpack with _ | _ | _ | _ <;> rfl

lemma compareNumbers_swap : compareNumbers y x = (compareNumbers x y).map Ordering.swap := by
  rw [compareNumbers_eq, compareNumbers_eq, unpacked_compare_swap]

lemma beq_eq_compareNumbers : (x == y) = (compareNumbers x y == some .eq) := by
  rw [Bool.eq_iff_iff, float_beq_iff, compareNumbers_eq, beq_iff_eq]

/-- Two doubles have no order just where one is no number. -/
lemma compareNumbers_eq_none :
    compareNumbers x y = none ↔ x.isNaN = true ∨ y.isNaN = true := by
  rw [compareNumbers_eq]
  change _ ↔ x.toModel.unpack.isNaN = true ∨ y.toModel.unpack.isNaN = true
  rcases x.toModel.unpack with ⟨_ | _⟩ | _ | _ | ⟨_ | _, m, e, _⟩ <;>
    rcases y.toModel.unpack with ⟨_ | _⟩ | _ | _ | ⟨_ | _, m', e', _⟩ <;>
    simp [UnpackedFloat.compare, UnpackedFloat.isNaN]

end Value

end Doubles

namespace Value

variable (v w : Value)

lemma looseCompare_swap : w.looseCompare v = (v.looseCompare w).map Ordering.swap := by
  cases v <;> cases w <;> try exact compareNumbers_swap _ _
  exact congrArg some Std.OrientedOrd.eq_swap

/-- Values are equal just where they are neither less nor greater than each other. -/
theorem looseEq_eq : v.looseEq w = (v.looseCompare w == some .eq) := by
  cases v <;> cases w <;> try exact beq_eq_compareNumbers _ _
  · next a b => cases a <;> cases b <;> decide
  · next s t => rw [Bool.eq_iff_iff, beq_iff_eq, looseCompare, Option.some_inj,
      Std.LawfulEqOrd.compare_eq_iff_eq, looseEq, beq_iff_eq]

/-- No order between two values: they are not both texts, and one of them counts for no number. -/
def Unordered : Prop :=
  (∀ s t, ¬(v = .text s ∧ w = .text t)) ∧ (v.toNumber.isNaN = true ∨ w.toNumber.isNaN = true)

lemma looseCompare_eq_none : v.looseCompare w = none ↔ v.Unordered w := by
  unfold Unordered
  cases v <;> cases w <;> simp [looseCompare, compareNumbers_eq_none]

end Value

namespace Comparison

/-- The outcomes of the order for which a comparison holds. -/
def admits (op : Comparison) (order : Option Ordering) : Bool :=
  match op with
  | .greater => order == some .gt
  | .greaterOrEqual => order == some .gt || order == some .eq
  | .less => order == some .lt
  | .lessOrEqual => order == some .lt || order == some .eq
  | .equal => order == some .eq
  | .notEqual => !(order == some .eq)

theorem holds_eq (op : Comparison) (v w : Value) : op.holds v w = op.admits (v.looseCompare w) := by
  cases op <;> simp only [holds, admits, Value.looseEq_eq]

/-- The comparison that says the same from the other side. -/
def converse : Comparison → Comparison
  | .greater => .less
  | .greaterOrEqual => .lessOrEqual
  | .less => .greater
  | .lessOrEqual => .greaterOrEqual
  | .equal => .equal
  | .notEqual => .notEqual

lemma admits_swap (op : Comparison) (order : Option Ordering) :
    op.converse.admits (order.map Ordering.swap) = op.admits order := by
  cases op <;> rcases order with _ | _ | _ | _ <;> rfl

lemma apply_converse (op : Comparison) (v w : Value) : op.converse.apply w v = op.apply v w := by
  rw [apply, apply, holds_eq, holds_eq, Value.looseCompare_swap v w, admits_swap]

/-- The comparisons that exclude each other. -/
def exclusive : List Comparison := [.less, .equal, .greater]

/-- The comparisons of two values of any kinds fit together. Each says the same as its converse from the
other side, `v <= w` says the same as `v < w || v == w`, and `v != w` the same as `!(v == w)`. No two of
`<`, `==` and `>` hold together. Just one of them holds if the values have an order, and otherwise only `!=`
does. -/
theorem apply_coherent (v w : Value) :
    Comparison.less.apply v w = Comparison.greater.apply w v ∧
    Comparison.lessOrEqual.apply v w = Comparison.greaterOrEqual.apply w v ∧
    Comparison.lessOrEqual.apply v w =
      Connective.or.apply (Comparison.less.apply v w) (Comparison.equal.apply v w) ∧
    Comparison.equal.apply v w = Comparison.equal.apply w v ∧
    Comparison.notEqual.apply v w = Unary.not.apply (Comparison.equal.apply v w) ∧
    exclusive.Pairwise (fun op op' => ¬(op.apply v w = .boolean true ∧ op'.apply v w = .boolean true)) ∧
    (¬v.Unordered w ∧ (∃! op, op ∈ exclusive ∧ op.apply v w = .boolean true) ∨
      v.Unordered w ∧ ∀ op : Comparison, op.apply v w = .boolean true ↔ op = .notEqual) := by
  refine ⟨(apply_converse .less v w).symm, (apply_converse .lessOrEqual v w).symm, ?_,
    (apply_converse .equal v w).symm, ?_, ?_, ?_⟩
  · simp only [apply, holds_eq, Connective.apply, Value.truthy, admits]
  · simp only [apply, holds_eq, Unary.apply, Value.truthy, admits]
  · simp only [apply, holds_eq, Value.boolean.injEq]
    rcases v.looseCompare w with _ | _ | _ | _ <;> decide
  · rw [← Value.looseCompare_eq_none]
    simp only [apply, holds_eq, Value.boolean.injEq]
    rcases v.looseCompare w with _ | order
    · exact .inr ⟨rfl, fun op => by cases op <;> decide⟩
    · refine .inl ⟨by simp, ?_⟩
      cases order with
      | lt => exact ⟨.less, by decide, by simp [exclusive, admits]⟩
      | eq => exact ⟨.equal, by decide, by simp [exclusive, admits]⟩
      | gt => exact ⟨.greater, by decide, by simp [exclusive, admits]⟩

end Comparison

end Tariff
