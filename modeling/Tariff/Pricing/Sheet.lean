import Tariff.Pricing.Registry

/-!
# Price sheets

`price` evaluates the requested terms for each item. Every item has a session of its own, which
starts from the injected values; of items of one name the last one is on the sheet.
-/

namespace Tariff

/-- Something to price by the document of a schema. -/
structure Item where
  name : String
  schema : String
deriving DecidableEq, Repr

abbrev Row := Std.ExtTreeMap String Value

abbrev Sheet := Std.ExtTreeMap String Row

def Row.ofList (entries : List (String × Value)) : Row :=
  entries.foldl (fun row (term, value) => row.insert term value) ∅

/-- The row of an item, each term evaluated in turn in one session. -/
def priceItem (registry : Registry) (terms : List String) (injected : Table) (item : Item) :
    Except Failure Row := do
  let document ← registry.document item.schema
  let definitions := document.definitionOf
  let values ← (terms.mapM (definitions.resolve []) injected).1.mapError Failure.evaluation
  return Row.ofList (terms.zip values)

/-- The sheet of all items. The first item that fails makes the whole sheet fail. -/
def price (registry : Registry) (items : List Item) (terms : List String) (injected : Table) :
    Except Failure Sheet :=
  items.foldlM (fun sheet item => do
    let row ← priceItem registry terms injected item
    return sheet.insert item.name row) ∅

end Tariff
