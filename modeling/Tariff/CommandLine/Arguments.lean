import Tariff.Value

/-!
# Arguments of the command line

    [-v|--verbose] [--json] tokens|check|fmt FILE
    [-v|--verbose] [--json] eval FILE TERM... [--set NAME=VALUE]... [--values FILE]
    [-v|--verbose] [--json] price --schema NAME=PATH... --request FILE

The two flags may stand before or after the command. An option takes its value from the same
argument after `=` or from the next one, options may stand between other arguments, and `--` ends
them. `Invocation.ofArguments?` accepts these forms and no others.
-/

namespace Tariff

inductive Command where
  | tokens (file : String)
  | check (file : String)
  | format (file : String)
  | evaluate (file : String) (terms : List String) (assignments : List (String × Value))
      (values : Option String)
  | price (schemas : List (String × String)) (request : String)

structure Invocation where
  json : Bool
  /-- Whether a fuller log is asked for. The log is not part of what a command reports. -/
  verbose : Bool
  command : Command

namespace Invocation

/-- Whether an argument can only be a flag or an option. A single dash is an argument of its own. -/
def isDashed (argument : String) : Bool :=
  argument.toList.head? = some '-' && argument ≠ "-"

/-- A text cut at the first equals sign. -/
def cutAtEquals (s : String) : String × Option String :=
  let name := s.toList.takeWhile (· ≠ '=')
  match s.toList.drop name.length with
  | [] => (s, none)
  | _ :: value => (String.ofList name, some (String.ofList value))

structure Sorted where
  flags : List String
  options : List (String × String)
  positional : List String

namespace Sorted

def addFlag (name : String) (a : Sorted) : Sorted := { a with flags := name :: a.flags }

def addOption (name value : String) (a : Sorted) : Sorted :=
  { a with options := (name, value) :: a.options }

def addPositional (argument : String) (a : Sorted) : Sorted :=
  { a with positional := argument :: a.positional }

def valuesOf (name : String) (a : Sorted) : List String :=
  (a.options.filter (·.1 = name)).map (·.2)

def flagsAreSingle (a : Sorted) : Bool :=
  a.flags.count "json" ≤ 1 && a.flags.count "verbose" ≤ 1

end Sorted

/-- The flags that an argument gives, if it gives flags. The short form may be repeated within one
argument. -/
def flagsOf? (argument : String) : Option (List String) :=
  if argument = "--json" then some ["json"]
  else if argument = "--verbose" then some ["verbose"]
  else match argument.toList with
    | '-' :: 'v' :: letters =>
      if letters.all (· = 'v') then some (List.replicate (letters.length + 1) "verbose") else none
    | _ => none

/-- Sorts the arguments of a command that knows some options by name. -/
def sort? (known : List String) : List String → Option Sorted
  | [] => some ⟨[], [], []⟩
  | argument :: rest =>
    if argument = "--" then some ⟨[], [], rest⟩
    else if isDashed argument then
      match flagsOf? argument with
      | some flags => (sort? known rest).map fun a => flags.foldr Sorted.addFlag a
      | none =>
        match cutAtEquals argument with
        | (option, some value) =>
          let name := String.ofList (option.toList.drop 2)
          if option = "--" ++ name ∧ name ∈ known then
            (sort? known rest).map (Sorted.addOption name value)
          else none
        | (option, none) =>
          let name := String.ofList (option.toList.drop 2)
          if option = "--" ++ name ∧ name ∈ known then
            match rest with
            | [] => none
            | value :: rest =>
              if isDashed value then none else (sort? known rest).map (Sorted.addOption name value)
          else none
    else (sort? known rest).map (Sorted.addPositional argument)

/-- The flags before the command, the name of the command, and the arguments after it. -/
def cutAtCommand? : List String → Option (List String × String × List String)
  | [] => none
  | argument :: rest =>
    if isDashed argument then do
      let flags ← flagsOf? argument
      let (more, command, rest) ← cutAtCommand? rest
      return (flags ++ more, command, rest)
    else some ([], argument, rest)

/-- A name and a value around an equals sign, without blanks at their ends. The name may not be
blank. -/
def assignment? (s : String) : Option (String × String) :=
  match cutAtEquals s with
  | (_, none) => none
  | (name, some value) =>
    if Text.trim name = "" then none else some (Text.trim name, Text.trim value)

/-- A name and the value that the text after the equals sign stands for. -/
def valueAssignment? (s : String) : Option (String × Value) :=
  (assignment? s).map fun (name, value) => (name, Value.ofText value)

def path? (s : String) : Option String :=
  if s = "" then none else some s

def onlyPath? (a : Sorted) : Option String :=
  match a.positional with
  | [file] => path? file
  | _ => none

def single? (a : Sorted) (name : String) : Option (Option String) :=
  match a.valuesOf name with
  | [] => some none
  | [value] => some (some value)
  | _ => none

def knownOptions (command : String) : List String :=
  if command = "eval" then ["set", "values"]
  else if command = "price" then ["schema", "request"]
  else []

def command? (name : String) (a : Sorted) : Option Command :=
  if name = "tokens" then (onlyPath? a).map .tokens
  else if name = "check" then (onlyPath? a).map .check
  else if name = "fmt" then (onlyPath? a).map .format
  else if name = "eval" then
    match a.positional with
    | [] => none
    | [_] => none
    | file :: terms => do
      let file ← path? file
      let assignments ← (a.valuesOf "set").mapM valueAssignment?
      match ← single? a "values" with
      | none => return .evaluate file terms assignments none
      | some values => return .evaluate file terms assignments (← path? values)
  else if name = "price" then
    match a.positional, a.valuesOf "schema" with
    | [], schema :: schemas => do
      let request ← single? a "request"
      return .price (← (schema :: schemas).mapM assignment?) (← path? (← request))
    | _, _ => none
  else none

/-- What a list of arguments asks for. -/
def ofArguments? (arguments : List String) : Option Invocation := do
  let (before, name, rest) ← cutAtCommand? arguments
  let sorted ← sort? (knownOptions name) rest
  let command ← command? name sorted
  if sorted.flagsAreSingle && before.count "json" ≤ 1 && before.count "verbose" ≤ 1 then
    let flags := before ++ sorted.flags
    return ⟨flags.contains "json", flags.contains "verbose", command⟩
  else none

end Invocation

end Tariff
