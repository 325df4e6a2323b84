import Tariff.Check
import Tariff.CommandLine.Arguments
import Tariff.Pricing.Request

/-!
# Commands

`Invocation.run` carries a command out, given a way to read files, and reports what is printed and
how it ends. Nothing is printed before a failure, except by an evaluation that prints its terms one
by one. A report is what a command prints with its log turned off.
-/

namespace Tariff

inductive CommandError where
  | reading (path : String) (error : FileError)
  | parsing (path : String) (error : SourceError)
  | invalidValues (path : String)
  | invalidRequest (path : String)
  | failed (failure : Failure)
deriving DecidableEq, Repr

/-- What a reader is told. The reason why a document cannot be read is given twice, by the failure
and as its cause. -/
def CommandError.message : CommandError → String
  | .reading path e => "failed to read " ++ path ++ ": " ++ e.message
  | .parsing path e => "failed to parse " ++ path ++ ": " ++ e.message
  | .invalidValues path => "invalid values file " ++ path
  | .invalidRequest path => "invalid pricing request " ++ path
  | .failed (.unreadable path e) => (Failure.unreadable path e).message ++ ": " ++ e.message
  | .failed e => e.message

structure Report where
  stdout : String
  /-- A check that finds errors does not succeed, though nothing went wrong. -/
  succeeded : Bool
  error : Option CommandError

namespace Report

def done (stdout : String) : Report := ⟨stdout, true, none⟩

def failure (stdout : String) (error : CommandError) : Report := ⟨stdout, false, some error⟩

def exitCode (r : Report) : Nat := if r.succeeded then 0 else 1

/-- What is told of an error. Lines of a log, such as the warnings of a registration or what a verbose
command adds, are not part of a report. -/
def stderr (r : Report) : String :=
  match r.error with
  | some e => "Error: " ++ e.message ++ "\n"
  | none => ""

end Report

def Location.toJson (l : Location) : Json :=
  .ofMembers [("line", .ofNat l.line), ("column", .ofNat l.column)]

def Token.toJson (t : Token) : Json :=
  .ofMembers [("kind", .ofString t.kind.text), ("text", .ofString t.text),
    ("location", t.location.toJson)]

def Diagnostic.toJson (d : Diagnostic) : Json :=
  .ofMembers [("location", d.location.toJson), ("severity", .ofString d.severity.text),
    ("message", .ofString d.message)]

def linesText (lines : List String) : String :=
  String.join (lines.map (· ++ "\n"))

def Json.printed (j : Json) : String :=
  j.pretty ++ "\n"

namespace Command

def reportTokens (json : Bool) (source : String) : Report :=
  match tokenize source with
  | .error e => .failure "" (.failed (.source (.lexical e)))
  | .ok words =>
    if json then .done (Json.array (words.map Token.toJson)).printed
    else .done (linesText (words.map fun t =>
      t.location.text ++ " " ++ t.kind.text ++ " " ++ t.text))

def reportCheck (json : Bool) (d : Document) : Report where
  stdout :=
    if json then (Json.array (d.check.map Diagnostic.toJson)).printed
    else linesText (d.check.map Diagnostic.text)
  succeeded := !d.check.any Diagnostic.isError
  error := none

/-- The values of terms evaluated in turn, up to the first that fails. -/
def evaluateTerms (definitions : Definitions) :
    List String → Table → List (String × Value) × Option EvalError
  | [], _ => ([], none)
  | term :: terms, table =>
    match definitions.resolve [] term table with
    | (.error e, _) => ([], some e)
    | (.ok value, table) =>
      let (values, e) := evaluateTerms definitions terms table
      ((term, value) :: values, e)

def reportValues (json : Bool) (d : Document) (terms : List String) (table : Table) : Report :=
  let (values, e) := evaluateTerms d.definitionOf terms table
  let lines := linesText (values.map fun (term, value) => term ++ " = " ++ value.shown)
  match e, json with
  | some e, true => .failure "" (.failed (.evaluation e))
  | some e, false => .failure lines (.failed (.evaluation e))
  | none, true => .done (Row.ofList values).toJson.printed
  | none, false => .done lines

/-- The table of a session: what a file gives, and then what the assignments give. -/
def seed (values : Table) (assignments : List (String × Value)) : Table :=
  assignments.foldl (fun table (name, value) => table.insert name value) values

variable {m : Type → Type} [Monad m] (readFile : String → m (Except FileError String))

def load (path : String) : ExceptT CommandError m String := do
  match ← readFile path with
  | .ok text => return text
  | .error e => throw (.reading path e)

def loadDocument (path : String) : ExceptT CommandError m Document := do
  match Document.ofSource (← load readFile path) with
  | .ok d => return d
  | .error e => throw (.parsing path e)

def loadValues : Option String → ExceptT CommandError m Table
  | none => return ∅
  | some path => do
    match Json.read? (← load readFile path) >>= Table.ofJson? with
    | some table => return table
    | none => throw (.invalidValues path)

def loadRequest (path : String) : ExceptT CommandError m Request := do
  match Json.read? (← load readFile path) >>= Request.ofJson? with
  | some request => return request
  | none => throw (.invalidRequest path)

def loadRegistry (schemas : List (String × String)) : ExceptT CommandError m Registry :=
  schemas.foldlM (fun registry (schema, path) => do
    match Registry.registerFile schema path (← readFile path) registry with
    | (.ok (), registry) => return registry
    | (.error e, _) => throw (.failed e)) ∅

/-- Carries a command out, up to an error in what it reads. -/
def report (json : Bool) : Command → ExceptT CommandError m Report
  | .tokens file => return reportTokens json (← load readFile file)
  | .check file => return reportCheck json (← loadDocument readFile file)
  | .format file => return .done (← loadDocument readFile file).text
  | .evaluate file terms assignments values => do
    let d ← loadDocument readFile file
    let table ← loadValues readFile values
    return reportValues json d terms (seed table assignments)
  | .price schemas request => do
    let registry ← loadRegistry readFile schemas
    let request ← loadRequest readFile request
    match request.sheet registry with
    | .ok sheet => return .done sheet.toJson.printed
    | .error e => throw (.failed e)

end Command

def Invocation.run {m : Type → Type} [Monad m] (invocation : Invocation)
    (readFile : String → m (Except FileError String)) : m Report := do
  match ← (invocation.command.report readFile invocation.json).run with
  | .ok report => return report
  | .error e => return .failure "" e

end Tariff
