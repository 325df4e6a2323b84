import Tariff.Document.Grammar
import Tariff.Token.Lexer

/-!
# Documents from source text

`Document.ofSource` cuts a text into tokens and reads the tokens as a document.
-/

namespace Tariff

inductive SourceError where
  | lexical (error : LexError)
  | syntactic (error : ParseError)
deriving DecidableEq, Repr

def SourceError.message : SourceError → String
  | .lexical e => e.message
  | .syntactic e => e.message

/-- Reads a document from its text. -/
def Document.ofSource (source : String) : Except SourceError Document := do
  let tokens ← (tokenize source).mapError SourceError.lexical
  (Document.ofTokens tokens).mapError SourceError.syntactic

end Tariff
