/-!
# Places in a text

A `Location` counts lines from one and columns from zero, in characters. Moving past a text is
`Location.advance`, and `advance_append` says that moving past two texts in a row is moving past
them joined, so where a text is cut does not matter.
-/

namespace Tariff

/-- A place in a text. -/
structure Location where
  /-- The line, from one. -/
  line : Nat
  /-- The characters before this place on its line. -/
  column : Nat
deriving DecidableEq, Repr

namespace Location

def start : Location := ⟨1, 0⟩

/-- The place after one character. Only a line feed starts a new line. -/
def next (l : Location) (c : Char) : Location :=
  if c = '\n' then ⟨l.line + 1, 0⟩ else ⟨l.line, l.column + 1⟩

def advance (l : Location) (s : List Char) : Location :=
  s.foldl next l

@[simp] theorem advance_nil (l : Location) : l.advance [] = l := rfl

@[simp] theorem advance_cons (l : Location) (c : Char) (s : List Char) :
    l.advance (c :: s) = (l.next c).advance s := rfl

theorem advance_append (l : Location) (s t : List Char) :
    l.advance (s ++ t) = (l.advance s).advance t :=
  List.foldl_append

/-- The order of a reader: by line, then by column. -/
def notAfter (l m : Location) : Bool :=
  l.line < m.line || (l.line == m.line && l.column ≤ m.column)

def text (l : Location) : String :=
  toString l.line ++ ":" ++ toString l.column

end Location

end Tariff
