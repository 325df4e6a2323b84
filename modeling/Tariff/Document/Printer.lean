import Tariff.Document

/-!
# Documents as text

Groups of injected names come first, then one definition a line, with single blanks around the
operators between operands. Names and numbers are written as they were read.
-/

namespace Tariff

def booleanText (b : Bool) : String :=
  if b then "true" else "false"

namespace Formula

def text : {l : Level} → Formula l → String
  | _, .operand x => x.text
  | _, .link left op right => left.text ++ " " ++ op.symbol ++ " " ++ right.text
  | _, .plain x => x.text
  | _, .compare left op right => left.text ++ " " ++ op.symbol ++ " " ++ right.text
  | _, .factor none x => x.text
  | _, .factor (some op) x => op.symbol ++ x.text
  | _, .number word => word.text
  | _, .boolean value _ => booleanText value
  | _, .parentheses x => "(" ++ x.text ++ ")"
  | _, .conditional condition yes no =>
    "if " ++ condition.text ++ " then " ++ yes.text ++ " else " ++ no.text ++ " end"
  | _, .name word => word.text

end Formula

def Injectable.text (i : Injectable) : String :=
  "$" ++ i.group.text ++ ": " ++ ", ".intercalate (i.names.map (·.text))

def Definition.text (d : Definition) : String :=
  d.name.text ++ " = " ++ d.body.text

def Document.text (d : Document) : String :=
  String.join (d.injectables.map (·.text ++ "\n") ++ d.definitions.map (·.text ++ "\n"))

end Tariff
