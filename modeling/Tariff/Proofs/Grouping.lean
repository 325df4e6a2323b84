import Tariff.Proofs.VisitedNames

/-!
# Parentheses that change nothing

Chains are grouped from the left and comparisons from the right. Parentheses around the first operands of
a chain, around the right-hand side of a comparison or around an operand only spell this out (`Groups`).
Wherever in a formula they are put in or taken out, its evaluation gives the same value or the same error
and leaves the same scope (`Scope.evaluate_congr_groups`).
-/

namespace Tariff

namespace Formula

variable {l : Level} {c : Chain}

/-- An atom where a formula of some level is needed. -/
def ofAtom (atom : Formula .atom) : (l : Level) → Formula l
  | .chain .logic => .single atom
  | .comparison => .plain (.operand (.operand (.factor none atom)))
  | .chain .sum => .operand (.operand (.factor none atom))
  | .chain .product => .operand (.factor none atom)
  | .factor => .factor none atom
  | .atom => atom

/-- A formula of any level as an expression. -/
def toExpression : {l : Level} → Formula l → Expression
  | .chain .logic, x => x
  | .comparison, x => .operand x
  | .chain .sum, x => .operand (.plain x)
  | .chain .product, x => .operand (.plain (.operand x))
  | .factor, x => .operand (.plain (.operand (.operand x)))
  | .atom, x => .single x

/-- A formula in parentheses, where a formula of the level `k` is needed. -/
def enclosed (x : Formula l) (k : Level) : Formula k :=
  ofAtom (.parentheses x.toExpression) k

/-- The second formula has parentheses where the first one is grouped anyway. -/
inductive Groups : {l : Level} → Formula l → Formula l → Prop
  /-- Around the first operands of a chain, as many as one likes. -/
  | front {c : Chain} (first : Formula c.operand) (links rest : List (Connective c × Formula c.operand)) :
      Groups (chainOf first (links ++ rest)) (chainOf ((chainOf first links).enclosed c.operand) rest)
  /-- Around all that stands on the right of a comparison. -/
  | rightSide (left : Formula (.chain .sum)) (op : Comparison) (right : Formula .comparison) :
      Groups (.compare left op right) (.compare left op (right.enclosed .comparison))
  /-- Around an operand, of whatever operator. -/
  | operand {l : Level} (x : Formula l) : Groups x (x.enclosed l)

/-- One part of the first formula, at any depth, is replaced as `step` allows. -/
inductive Within (step : (l : Level) → Formula l → Formula l → Prop) :
    {l : Level} → Formula l → Formula l → Prop
  | here {l : Level} {x y : Formula l} (h : step l x y) : Within step x y
  | operand {c : Chain} {x y : Formula c.operand} (h : Within step x y) :
      Within step (.operand x) (.operand y)
  | linkLeft {c : Chain} {x y : Formula (.chain c)} (h : Within step x y) (op : Connective c)
      (right : Formula c.operand) : Within step (.link x op right) (.link y op right)
  | linkRight {c : Chain} (left : Formula (.chain c)) (op : Connective c) {x y : Formula c.operand}
      (h : Within step x y) : Within step (.link left op x) (.link left op y)
  | plain {x y : Formula (.chain .sum)} (h : Within step x y) : Within step (.plain x) (.plain y)
  | compareLeft {x y : Formula (.chain .sum)} (h : Within step x y) (op : Comparison)
      (right : Formula .comparison) : Within step (.compare x op right) (.compare y op right)
  | compareRight (left : Formula (.chain .sum)) (op : Comparison) {x y : Formula .comparison}
      (h : Within step x y) : Within step (.compare left op x) (.compare left op y)
  | factor (op : Option Unary) {x y : Formula .atom} (h : Within step x y) :
      Within step (.factor op x) (.factor op y)
  | parentheses {x y : Expression} (h : Within step x y) :
      Within step (.parentheses x) (.parentheses y)
  | condition {x y : Expression} (h : Within step x y) (yes no : Expression) :
      Within step (.conditional x yes no) (.conditional y yes no)
  | yes (condition : Expression) {x y : Expression} (h : Within step x y) (no : Expression) :
      Within step (.conditional condition x no) (.conditional condition y no)
  | no (condition yes : Expression) {x y : Expression} (h : Within step x y) :
      Within step (.conditional condition yes x) (.conditional condition yes y)

section Values

variable {m : Type → Type} [Monad m] {lookup : String → m Value}

lemma evalM_ofAtom (atom : Formula .atom) (l : Level) :
    (ofAtom atom l).evalM lookup = atom.evalM lookup := by
  rcases l with (_ | _ | _) | _ | _ | _ <;> rfl

lemma evalM_toExpression (x : Formula l) : x.toExpression.evalM lookup = x.evalM lookup := by
  rcases l with (_ | _ | _) | _ | _ | _ <;> rfl

/-- A formula in parentheses has its own value, whatever level it stands for. -/
theorem evalM_enclosed (x : Formula l) (k : Level) :
    (x.enclosed k).evalM lookup = x.evalM lookup := by
  rw [enclosed, evalM_ofAtom, evalM, evalM_toExpression]

/-- A chain goes on from the value of its beginning, whatever that is made of. -/
lemma evalM_foldl_link_congr {left left' : Formula (.chain c)}
    (h : left.evalM lookup = left'.evalM lookup) (rest : List (Connective c × Formula c.operand)) :
    (rest.foldl (fun left (op, right) => .link left op right) left).evalM lookup =
      (rest.foldl (fun left (op, right) => .link left op right) left').evalM lookup := by
  induction rest generalizing left left' with
  | nil => exact h
  | cons next rest ih =>
    obtain ⟨op, right⟩ := next
    apply ih
    rw [evalM, evalM, h]

lemma Groups.evalM_eq {f g : Formula l} (h : Groups f g) : f.evalM lookup = g.evalM lookup := by
  cases h with
  | @front c first links rest =>
    have hfront : (chainOf first links).evalM lookup =
        (Formula.operand ((chainOf first links).enclosed c.operand)).evalM lookup := by
      rw [evalM, evalM_enclosed]
    have hchain := evalM_foldl_link_congr hfront rest
    rw [chainOf, List.foldl_append]
    exact hchain
  | rightSide left op right => rw [evalM, evalM, evalM_enclosed]
  | operand => exact (evalM_enclosed f l).symm

/-- A formula keeps its value when a part of it is replaced by one of the same value. -/
theorem Within.evalM_eq {step : (l : Level) → Formula l → Formula l → Prop}
    (hstep : ∀ (l : Level) (x y : Formula l), step l x y → x.evalM lookup = y.evalM lookup)
    {f g : Formula l} (h : Within step f g) : f.evalM lookup = g.evalM lookup := by
  induction h with
  | here h => exact hstep _ _ _ h
  | operand _ ih => rw [evalM, evalM, ih]
  | linkLeft _ op right ih => rw [evalM, evalM, ih]
  | linkRight left op _ ih => rw [evalM, evalM, ih]
  | plain _ ih => rw [evalM, evalM, ih]
  | compareLeft _ op right ih => rw [evalM, evalM, ih]
  | compareRight left op _ ih => rw [evalM, evalM, ih]
  | factor op _ ih =>
    cases op with
    | none => rw [evalM, evalM, ih]
    | some op => rw [evalM, evalM, ih]
  | parentheses _ ih => rw [evalM, evalM, ih]
  | condition _ yes no ih => rw [evalM, evalM, ih]
  | yes condition _ no ih => rw [evalM, evalM, ih]
  | no condition yes _ ih => rw [evalM, evalM, ih]

/-- Putting in and taking out parentheses that spell out the grouping, any number of times, keeps the
value. -/
lemma evalM_congr_groups {f g : Formula l} (h : Relation.EqvGen (Within @Groups) f g) :
    f.evalM lookup = g.evalM lookup := by
  induction h with
  | rel f g hstep => exact hstep.evalM_eq fun _ _ _ => Groups.evalM_eq
  | refl f => rfl
  | symm f g _ ih => exact ih.symm
  | trans f g k _ _ ihfg ihgk => exact ihfg.trans ihgk

end Values

end Formula

/-- Parentheses that spell out how a formula is grouped, put in or taken out at any places, change neither
the value nor the error of its evaluation, nor the scope that is left. -/
theorem Scope.evaluate_congr_groups {l : Level} {f g : Formula l}
    (h : Relation.EqvGen (Formula.Within @Formula.Groups) f g) (scope : Scope) :
    scope.evaluate f = scope.evaluate g := by
  rw [evaluate, evaluate, Formula.evalM_congr_groups h]

namespace Formula

/-- A name where a formula of some level is needed. -/
def named (name : String) (l : Level) : Formula l :=
  ofAtom (.name ⟨name, .start⟩) l

/-- The formula `!(price - stock + rate < stock == rate)`. -/
def looseTest : Formula .factor :=
  .factor (some .not) (.parentheses (.operand (.compare
    (chainOf (c := .sum) (named "price" _) [(.subtract, named "stock" _), (.add, named "rate" _)]) .less
    (.compare (named "stock" _) .equal (named "rate" _)))))

/-- The formula `!((price - stock) + rate < (stock == rate))`. -/
def groupedTest : Formula .factor :=
  .factor (some .not) (.parentheses (.operand (.compare
    (chainOf (c := .sum)
      ((chainOf (c := .sum) (named "price" _) [(.subtract, named "stock" _)]).enclosed _)
      [(.add, named "rate" _)]) .less
    ((compare (named "stock" _) .equal (named "rate" _)).enclosed _))))

lemma looseTest_groups : Relation.EqvGen (Within @Groups) looseTest groupedTest := by
  have hfront := Groups.front (c := .sum) (named "price" _) [(.subtract, named "stock" _)]
    [(.add, named "rate" _)]
  have hright := Groups.rightSide (chainOf (c := .sum)
    ((chainOf (c := .sum) (named "price" _) [(.subtract, named "stock" _)]).enclosed _)
    [(.add, named "rate" _)]) .less (.compare (named "stock" _) .equal (named "rate" _))
  exact .trans _ _ _
    (.rel _ _ (.factor _ (.parentheses (.operand (.compareLeft (.here hfront) _ _)))))
    (.rel _ _ (.factor _ (.parentheses (.operand (.here hright)))))

end Formula

/-- Two pairs of parentheses inside a negated comparison change nothing. -/
theorem Scope.evaluate_groupedTest :
    Relation.EqvGen (Formula.Within @Formula.Groups) Formula.looseTest Formula.groupedTest ∧
    Formula.looseTest ≠ Formula.groupedTest ∧
    (ofTable rateDocument.definitionOf rateTable).evaluate Formula.looseTest =
      (ofTable rateDocument.definitionOf rateTable).evaluate Formula.groupedTest :=
  ⟨Formula.looseTest_groups, by decide,
    evaluate_congr_groups Formula.looseTest_groups (ofTable rateDocument.definitionOf rateTable)⟩

end Tariff
