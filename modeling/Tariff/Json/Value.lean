import Tariff.Evaluation
import Tariff.Json.Reader
import Tariff.Json.Writer

/-!
# Values and tables in JSON

A value is written as the number, truth value or string that it is, and its kind is read off the
form. A table is an object; of members with one name the last one counts.
-/

namespace Tariff

namespace Value

def toJson : Value → Json
  | .number x => .ofFloat x
  | .boolean b => .boolean b
  | .text s => .ofString s

/-- The value that a tree stands for, given the doubles that written numbers are read as. Null, arrays
and objects stand for none. -/
def ofJsonWith? (readDouble : Numeral → Option Float) : Json → Option Value
  | .number n => (readDouble n).map .number
  | .boolean b => some (.boolean b)
  | .string s => s.map .text
  | _ => none

def ofJson? : Json → Option Value := ofJsonWith? Json.readDouble

end Value

namespace Table

def toJson (table : Table) : Json :=
  .ofMembers (table.toList.map fun (name, value) => (name, value.toJson))

def entryOfMember? (readDouble : Numeral → Option Float) :
    Option String × Json → Option (String × Value)
  | (name, value) => do return (← name, ← Value.ofJsonWith? readDouble value)

/-- The table of entries, the last one of each name. -/
def ofEntries (entries : List (String × Value)) : Table :=
  entries.foldl (fun table (name, value) => table.insert name value) ∅

def ofJsonWith? (readDouble : Numeral → Option Float) : Json → Option Table
  | .object members => (members.mapM (entryOfMember? readDouble)).map ofEntries
  | _ => none

def ofJson? : Json → Option Table := ofJsonWith? Json.readDouble

end Table

end Tariff
