import Tariff.Token

/-!
# Formulas

A `Formula` is a syntax tree whose type names its level of precedence, so that a tree can only be
built where the grammar allows it. The three levels of left associative operators are one shape,
`Formula (.chain c)`: an operand, or a chain on the left linked to an operand on the right.
Comparisons alone nest to the right. `Formula.chainOf` and `Formula.links` pass between a chain and
the list of its operands in source order.
-/

namespace Tariff

/-- The levels at which operators of equal rank form chains, loosest first. -/
inductive Chain where
  | logic
  | sum
  | product
deriving DecidableEq, Repr

inductive Level where
  | chain (c : Chain)
  | comparison
  | factor
  | atom
deriving DecidableEq, Repr

/-- The level of the operands of a chain. -/
def Chain.operand : Chain → Level
  | .logic => .comparison
  | .sum => .chain .product
  | .product => .factor

inductive Connective : Chain → Type where
  | and : Connective .logic
  | or : Connective .logic
  | add : Connective .sum
  | subtract : Connective .sum
  | multiply : Connective .product
  | divide : Connective .product
deriving DecidableEq, Repr

inductive Comparison where
  | greater
  | greaterOrEqual
  | less
  | lessOrEqual
  | equal
  | notEqual
deriving DecidableEq, Repr

inductive Unary where
  | not
  | negate
deriving DecidableEq, Repr

def Connective.symbol {c : Chain} : Connective c → String
  | .and => "&&"
  | .or => "||"
  | .add => "+"
  | .subtract => "-"
  | .multiply => "*"
  | .divide => "/"

def Comparison.symbol : Comparison → String
  | .greater => ">"
  | .greaterOrEqual => ">="
  | .less => "<"
  | .lessOrEqual => "<="
  | .equal => "=="
  | .notEqual => "!="

def Unary.symbol : Unary → String
  | .not => "!"
  | .negate => "-"

/-- A syntax tree at a level of precedence. -/
inductive Formula : Level → Type where
  | operand {c : Chain} (first : Formula c.operand) : Formula (.chain c)
  | link {c : Chain} (left : Formula (.chain c)) (op : Connective c) (right : Formula c.operand) :
      Formula (.chain c)
  | plain (value : Formula (.chain .sum)) : Formula .comparison
  | compare (left : Formula (.chain .sum)) (op : Comparison) (right : Formula .comparison) :
      Formula .comparison
  | factor (op : Option Unary) (base : Formula .atom) : Formula .factor
  | number (word : Terminal) : Formula .atom
  | boolean (value : Bool) (location : Location) : Formula .atom
  | parentheses (inner : Formula (.chain .logic)) : Formula .atom
  | conditional (condition yes no : Formula (.chain .logic)) : Formula .atom
  /-- The name of a term or of an injected value. -/
  | name (word : Terminal) : Formula .atom
deriving DecidableEq

abbrev Expression := Formula (.chain .logic)

namespace Formula

/-- The chain of a first operand and the linked ones after it, in source order. -/
def chainOf {c : Chain} (first : Formula c.operand) (rest : List (Connective c × Formula c.operand)) :
    Formula (.chain c) :=
  rest.foldl (fun left (op, right) => .link left op right) (.operand first)

def first {c : Chain} : Formula (.chain c) → Formula c.operand
  | .operand x => x
  | .link left _ _ => left.first

/-- The operands of a chain after the first with their operators, in source order. -/
def links {c : Chain} : Formula (.chain c) → List (Connective c × Formula c.operand)
  | .operand _ => []
  | .link left op right => left.links ++ [(op, right)]

@[simp] theorem first_operand {c : Chain} (x : Formula c.operand) : (operand x).first = x := by
  rw [first]

@[simp] theorem first_link {c : Chain} (left : Formula (.chain c)) (op : Connective c)
    (right : Formula c.operand) : (link left op right).first = left.first := by
  rw [first]

@[simp] theorem links_operand {c : Chain} (x : Formula c.operand) : (operand x).links = [] := by
  rw [links]

@[simp] theorem links_link {c : Chain} (left : Formula (.chain c)) (op : Connective c)
    (right : Formula c.operand) : (link left op right).links = left.links ++ [(op, right)] := by
  rw [links]

@[simp] theorem chainOf_nil {c : Chain} (x : Formula c.operand) : chainOf x [] = .operand x := rfl

theorem chainOf_append_singleton {c : Chain} (x : Formula c.operand)
    (rest : List (Connective c × Formula c.operand)) (op : Connective c) (y : Formula c.operand) :
    chainOf x (rest ++ [(op, y)]) = .link (chainOf x rest) op y := by
  simp [chainOf]

/-- A chain is made up of its operands. -/
theorem chainOf_first_links {c : Chain} (f : Formula (.chain c)) : chainOf f.first f.links = f := by
  match f with
  | .operand x => simp
  | .link left op right =>
    rw [first_link, links_link, chainOf_append_singleton, chainOf_first_links left]

def names : {l : Level} → Formula l → List Terminal
  | _, .operand x => x.names
  | _, .link left _ right => left.names ++ right.names
  | _, .plain x => x.names
  | _, .compare left _ right => left.names ++ right.names
  | _, .factor _ x => x.names
  | _, .number _ => []
  | _, .boolean _ _ => []
  | _, .parentheses x => x.names
  | _, .conditional condition yes no => condition.names ++ yes.names ++ no.names
  | _, .name word => [word]

end Formula

end Tariff
