import Tariff.Token

/-!
# A cursor over tokens

`Cursor` is a list of tokens with a position in it. Any position may be restored, also one past the
end, where there is nothing to see. `Cursor.rest` is what lies ahead, and every question about a
cursor is a question about it.
-/

namespace Tariff

/-- Tokens and a position among them. -/
structure Cursor where
  tokens : List Token
  position : Nat
deriving DecidableEq, Repr

namespace Cursor

def ofTokens (tokens : List Token) : Cursor := ⟨tokens, 0⟩

def rest (c : Cursor) : List Token := c.tokens.drop c.position

def peek? (c : Cursor) : Option Token := c.tokens[c.position]?

def hasNext (c : Cursor) : Bool := c.position < c.tokens.length

/-- The cursor after the token at its position, which stays where it is at the end. -/
def advance (c : Cursor) : Cursor :=
  if c.hasNext then { c with position := c.position + 1 } else c

def restore (c : Cursor) (position : Nat) : Cursor := { c with position }

theorem head?_rest (c : Cursor) : c.rest.head? = c.peek? := by
  simp [rest, peek?]

theorem hasNext_eq_isSome_peek? (c : Cursor) : c.hasNext = c.peek?.isSome := by
  rw [Bool.eq_iff_iff]
  simp [hasNext, peek?]

theorem rest_advance (c : Cursor) : c.advance.rest = c.rest.tail := by
  by_cases h : c.hasNext = true
  · simp [advance, h, rest]
  · have hp : c.tokens.length ≤ c.position := by simpa [hasNext] using h
    simp [advance, h, rest, List.drop_eq_nil_of_le hp]

end Cursor

end Tariff
