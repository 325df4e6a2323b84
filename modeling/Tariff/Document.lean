import Std.Data.ExtTreeMap
import Tariff.Document.Formula

/-!
# Formula documents

A `Document` announces groups of names whose values come from outside, and defines terms by
formulas. A name may be defined several times; `Document.definitionOf` keeps the last formula.
-/

namespace Tariff

/-- A group of names whose values come from outside. -/
structure Injectable where
  group : Terminal
  names : List Terminal
deriving DecidableEq

structure Definition where
  name : Terminal
  body : Expression
deriving DecidableEq

structure Document where
  injectables : List Injectable
  definitions : List Definition
deriving DecidableEq

abbrev Definitions := Std.ExtTreeMap String Expression

/-- The formula of each name, the last one of a name that is defined several times. -/
def Definitions.ofList (definitions : List Definition) : Definitions :=
  definitions.foldl (fun table d => table.insert d.name.text d.body) ∅

namespace Document

/-- Every name announced from outside, in order and with repetitions. -/
def injectableTerms (d : Document) : List Terminal :=
  d.injectables.flatMap (·.names)

def declaredTerms (d : Document) : List Terminal :=
  d.definitions.map (·.name)

/-- The formula that each term stands for. -/
def definitionOf (d : Document) : Definitions :=
  Definitions.ofList d.definitions

end Document

end Tariff
