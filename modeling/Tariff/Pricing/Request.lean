import Tariff.Json.Value
import Tariff.Pricing.Sheet

/-!
# Requests for prices

A `Request` is what is read from a JSON document: items, terms, and the injected values if there
are any. An item is an object or a list of two strings. Members that mean nothing here are passed
over, members that do may not be repeated.
-/

namespace Tariff

namespace Json

/-- The member of a name, which must be there once. -/
def member? (name : String) (members : List (Option String × Json)) : Option Json :=
  match members.filter (·.1 = some name) with
  | [(_, value)] => some value
  | _ => none

def hasMember (name : String) (members : List (Option String × Json)) : Bool :=
  members.any (·.1 = some name)

def text? : Json → Option String
  | .string s => s
  | _ => none

def items? : Json → Option (List Json)
  | .array items => some items
  | _ => none

end Json

def Item.ofJson? : Json → Option Item
  | .object members =>
    if members.all (·.1.isSome) then do
      return ⟨← (← Json.member? "name" members).text?, ← (← Json.member? "schema" members).text?⟩
    else none
  | .array [name, schema] => do return ⟨← name.text?, ← schema.text?⟩
  | _ => none

structure Request where
  items : List Item
  terms : List String
  values : Table

namespace Request

/-- The injected values among the members of a request. -/
def valuesOf? (members : List (Option String × Json)) : Option Table :=
  if Json.hasMember "values" members then Json.member? "values" members >>= Table.ofJson? else some ∅

def ofJson? (json : Json) : Option Request :=
  match json with
  | .object members =>
    if json.sound Json.depthLimit then do
      let items ← (← Json.member? "items" members).items?
      let terms ← (← Json.member? "terms" members).items?
      return ⟨← items.mapM Item.ofJson?, ← terms.mapM Json.text?, ← valuesOf? members⟩
    else none
  | _ => none

/-- The sheet that a request asks for. -/
def sheet (request : Request) (registry : Registry) : Except Failure Sheet :=
  price registry request.items request.terms request.values

end Request

def Row.toJson (row : Row) : Json :=
  .ofMembers (row.toList.map fun (term, value) => (term, value.toJson))

def Sheet.toJson (sheet : Sheet) : Json :=
  .ofMembers (sheet.toList.map fun (item, row) => (item, row.toJson))

end Tariff
