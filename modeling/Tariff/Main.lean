import Tariff.CommandLine.Run

/-!
# The command line

Reads files and prints; all else is `Invocation.run`. Arguments that are not understood end the
process with code two.
-/

namespace Tariff

/-- The number of an error of the system, which is negated in 32 bits when opening a file failed. -/
def errorNumber (code : UInt32) : UInt32 :=
  if code < 0x80000000 then code else -code

def fileErrorOf : IO.Error → FileError
  | .noFileOrDirectory .. => .notFound
  | .inappropriateType _ code _ => if errorNumber code = 21 then .isDirectory else .notDirectory
  | .invalidArgument _ code details =>
    if errorNumber code = 36 then .nameTooLong else .other details
  | e => .other (toString e)

def readFile (path : String) : IO (Except FileError String) := do
  try
    return FileError.decode (← IO.FS.readBinFile path)
  catch e =>
    return .error (fileErrorOf e)

def usage : String :=
  "Usage: tariff [-v] [--json] tokens|check|fmt FILE\n" ++
  "       tariff [-v] [--json] eval FILE TERM... [--set NAME=VALUE]... [--values FILE]\n" ++
  "       tariff [-v] [--json] price --schema NAME=PATH... --request FILE\n"

def runArguments (arguments : List String) : IO UInt32 := do
  match Invocation.ofArguments? arguments with
  | none =>
    IO.eprint usage
    return 2
  | some invocation =>
    let report ← invocation.run readFile
    IO.print report.stdout
    IO.eprint report.stderr
    return report.exitCode.toUInt32

end Tariff

def main (arguments : List String) : IO UInt32 :=
  Tariff.runArguments arguments
