import Tariff.Document.Source
import Tariff.Evaluation

/-!
# What can go wrong with a price
-/

namespace Tariff

/-- Why a file gives no text. -/
inductive FileError where
  | notFound
  | notText
  | isDirectory
  | notDirectory
  | nameTooLong
  | other (reason : String)
deriving DecidableEq, Repr

def FileError.message : FileError → String
  | .notFound => "No such file or directory (os error 2)"
  | .notText => "stream did not contain valid UTF-8"
  | .isDirectory => "Is a directory (os error 21)"
  | .notDirectory => "Not a directory (os error 20)"
  | .nameTooLong => "File name too long (os error 36)"
  | .other reason => reason

/-- The text that the bytes of a file encode in UTF-8. -/
def FileError.decode (bytes : ByteArray) : Except FileError String :=
  match String.fromUTF8? bytes with
  | some text => .ok text
  | none => .error .notText

inductive Failure where
  | source (error : SourceError)
  | evaluation (error : EvalError)
  | unknownSchema (schema : String)
  | unreadable (path : String) (error : FileError)
deriving DecidableEq, Repr

def Failure.message : Failure → String
  | .source e => e.message
  | .evaluation e => e.message
  | .unknownSchema schema => "Unknown schema '" ++ schema ++ "'."
  | .unreadable path e => "Cannot read formula document " ++ path ++ ": " ++ e.message

/-- The value of a term of a document that is given as text, in a session of its own. -/
def evaluateSource (source name : String) (table : Table) : Except Failure Value := do
  let document ← (Document.ofSource source).mapError Failure.source
  (document.evaluate name table).1.mapError Failure.evaluation

end Tariff
