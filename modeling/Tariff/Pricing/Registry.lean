import Tariff.Pricing.Failure

/-!
# Schemas

A `Registry` keeps the documents under the names of their schemas. Registering a schema again
replaces its document; a document that cannot be read changes nothing.
-/

namespace Tariff

abbrev Registry := Std.ExtTreeMap String Document

namespace Registry

def register (schema source : String) : Attempt Failure Registry Unit := do
  let document ← (Document.ofSource source).mapError Failure.source
  modify fun registry => registry.insert schema document

/-- Registers a document by its path, given what reading the file gave. -/
def registerFile (schema path : String) (content : Except FileError String) :
    Attempt Failure Registry Unit := do
  let source ← content.mapError (Failure.unreadable path)
  register schema source

def document (registry : Registry) (schema : String) : Except Failure Document :=
  match registry[schema]? with
  | some document => .ok document
  | none => .error (.unknownSchema schema)

end Registry

end Tariff
