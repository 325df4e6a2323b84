import Tariff.Check.Closure
import Tariff.Check.Diagnostic
import Tariff.Document

/-!
# Checking a document

`Document.check` lists what is wrong with a document without evaluating it: names that are not used
or not declared, repeated declarations, terms that mention themselves and terms that do not bottom
out in the injected names. The findings are in the order of the places they are about.
-/

namespace Tariff

namespace Document

def references (d : Document) : List (String × List String) :=
  d.definitionOf.toList.map fun (name, body) => (name, body.names.map (·.text))

/-- The names that are injected or bottom out in injected ones. -/
def fullyDefined (d : Document) : Names :=
  Closure.close d.references (.ofList (d.injectableTerms.map (·.text)))

/-- Every name in every formula, those of replaced definitions too. -/
def mentions (d : Document) : List Terminal :=
  d.definitions.flatMap (·.body.names)

def repeated (words : List Terminal) : List Terminal :=
  words.filter fun word => 1 < words.countP (·.text == word.text)

/-- The first definition of each name in a list, leaving out names that were seen before. -/
def firstOfEachName (seen : Names) : List Definition → List Definition
  | [] => []
  | d :: rest =>
    if seen.contains d.name.text then firstOfEachName seen rest
    else d :: firstOfEachName (seen.insert d.name.text) rest

/-- The last definition of each name, from the end of the document. -/
def effectiveDefinitions (d : Document) : List Definition :=
  firstOfEachName ∅ d.definitions.reverse

/-- What is wrong with the definition that a term stands for. A term that only lacks itself is
circular and not also called undefined. -/
def definitionProblems (defined : Names) (d : Definition) : List Diagnostic :=
  let name := d.name.text
  let uses := d.body.names.map (·.text)
  let circular := uses.contains name
  let blocked := uses.any fun use => use ≠ name && !defined.contains use
  (if circular then [⟨.circularDefinition, d.name⟩] else []) ++
    (if !defined.contains name && (!circular || blocked) then [⟨.notFullyDefined, d.name⟩] else [])

def unusedInjectables (d : Document) : List Terminal :=
  let used : Names := .ofList (d.mentions.map (·.text))
  d.injectableTerms.filter fun word => !used.contains word.text

def undeclaredMentions (d : Document) : List Terminal :=
  let known : Names := .ofList ((d.injectableTerms ++ d.declaredTerms).map (·.text))
  d.mentions.filter fun word => !known.contains word.text

def findings (d : Document) : List Diagnostic :=
  d.unusedInjectables.map (⟨.unusedInjectable, ·⟩) ++
    (repeated d.injectableTerms).map (⟨.duplicateInjectable, ·⟩) ++
    (repeated d.declaredTerms).map (⟨.duplicateTerm, ·⟩) ++
    d.effectiveDefinitions.flatMap (definitionProblems d.fullyDefined) ++
    d.undeclaredMentions.map (⟨.notDeclared, ·⟩)

/-- The findings in the order of their places. Findings at one place stay in the order of their
kinds. -/
def check (d : Document) : List Diagnostic :=
  d.findings.mergeSort fun a b => a.location.notAfter b.location

end Document

end Tariff
