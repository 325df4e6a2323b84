import Tariff.Token

/-!
# Findings about a document

A `Diagnostic` is a `Problem` with the word that it is about; place, severity and wording follow
from these.
-/

namespace Tariff

inductive Severity where
  | warning
  | error
deriving DecidableEq, Repr

def Severity.text : Severity → String
  | .warning => "warning"
  | .error => "error"

/-- What can be wrong with a word of a document. -/
inductive Problem where
  | unusedInjectable
  | duplicateInjectable
  | duplicateTerm
  | circularDefinition
  /-- The formula of the term does not bottom out in injected names. -/
  | notFullyDefined
  | notDeclared
deriving DecidableEq, Repr

namespace Problem

/-- Only a name that is not used is no error. -/
def severity : Problem → Severity
  | .unusedInjectable => .warning
  | _ => .error

def message (p : Problem) (name : String) : String :=
  match p with
  | .unusedInjectable => "Injectable '" ++ name ++ "' is unused."
  | .duplicateInjectable => "Injectable '" ++ name ++ "' is declared several times."
  | .duplicateTerm => "Term '" ++ name ++ "' is declared several times."
  | .circularDefinition => "Term '" ++ name ++ "' has a circular definition."
  | .notFullyDefined => "Term '" ++ name ++ "' is not fully defined."
  | .notDeclared => "Term '" ++ name ++ "' is not declared."

end Problem

/-- A problem and the word that it is about. -/
structure Diagnostic where
  problem : Problem
  word : Terminal
deriving DecidableEq, Repr

namespace Diagnostic

def location (d : Diagnostic) : Location := d.word.location

def severity (d : Diagnostic) : Severity := d.problem.severity

def message (d : Diagnostic) : String := d.problem.message d.word.text

def isError (d : Diagnostic) : Bool := d.severity = .error

def text (d : Diagnostic) : String :=
  d.location.text ++ " " ++ d.severity.text ++ ": " ++ d.message

end Diagnostic

end Tariff
