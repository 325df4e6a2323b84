import Tariff.Json.Basic

/-!
# Reading JSON

`Json.read?` reads a whole text by the grammar of JSON and accepts nothing beyond it. Each function
reads one form at the front of the characters and gives what follows.
-/

namespace Tariff.Json

def isJsonBlank (c : Char) : Bool :=
  c = ' ' || c = '\n' || c = '\t' || c = '\r'

def skipBlanks (s : List Char) : List Char :=
  s.dropWhile isJsonBlank

/-- A character of a string, or a 16-bit unit that was written by its number. -/
inductive StringUnit where
  | char (c : Char)
  | escaped (unit : Nat)
deriving DecidableEq, Repr

def hexValue? (c : Char) : Option Nat :=
  if c.isDigit then some (c.toNat - '0'.toNat)
  else if 'a' ≤ c ∧ c ≤ 'f' then some (c.toNat - 'a'.toNat + 10)
  else if 'A' ≤ c ∧ c ≤ 'F' then some (c.toNat - 'A'.toNat + 10)
  else none

def hexUnit? (a b c d : Char) : Option Nat := do
  return (((← hexValue? a) * 16 + (← hexValue? b)) * 16 + (← hexValue? c)) * 16 + (← hexValue? d)

/-- The character that a letter after a backslash stands for. -/
def shortEscape? : Char → Option Char
  | '"' => some '"'
  | '\\' => some '\\'
  | '/' => some '/'
  | 'b' => some '\x08'
  | 'f' => some '\x0c'
  | 'n' => some '\n'
  | 'r' => some '\r'
  | 't' => some '\t'
  | _ => none

/-- Reads a string after its opening quote. -/
def readUnits? : List Char → Option (List StringUnit × List Char)
  | [] => none
  | '"' :: s => some ([], s)
  | '\\' :: 'u' :: a :: b :: c :: d :: s => do
    let unit ← hexUnit? a b c d
    let (units, rest) ← readUnits? s
    return (.escaped unit :: units, rest)
  | '\\' :: c :: s => do
    let escape ← shortEscape? c
    let (units, rest) ← readUnits? s
    return (.char escape :: units, rest)
  | c :: s =>
    if c.toNat < 0x20 || c = '\\' then none
    else do
      let (units, rest) ← readUnits? s
      return (.char c :: units, rest)

def isHighSurrogate (unit : Nat) : Bool :=
  0xD800 ≤ unit && unit < 0xDC00

def isLowSurrogate (unit : Nat) : Bool :=
  0xDC00 ≤ unit && unit < 0xE000

/-- The characters of a string, unless a surrogate stands alone. -/
def charactersOf : List StringUnit → Option (List Char)
  | [] => some []
  | .char c :: units => (charactersOf units).map (c :: ·)
  | .escaped high :: .escaped low :: units =>
    if isHighSurrogate high && isLowSurrogate low then
      (charactersOf units).map
        (Char.ofNat (0x10000 + (high - 0xD800) * 0x400 + (low - 0xDC00)) :: ·)
    else if isHighSurrogate high || isLowSurrogate high then none
    else (charactersOf (.escaped low :: units)).map (Char.ofNat high :: ·)
  | .escaped unit :: units =>
    if isHighSurrogate unit || isLowSurrogate unit then none
    else (charactersOf units).map (Char.ofNat unit :: ·)

/-- Reads a string after its opening quote as a text, if it has one. -/
def readString? (s : List Char) : Option (Option String × List Char) :=
  (readUnits? s).map fun (units, rest) => ((charactersOf units).map String.ofList, rest)

def readDigits? (s : List Char) : Option (List Char × List Char) :=
  match s.takeWhile Char.isDigit with
  | [] => none
  | digits => some (digits, s.dropWhile Char.isDigit)

/-- The digits before the point: a single zero, or digits that do not start with one. -/
def readWhole? (s : List Char) : Option (List Char × List Char) := do
  let (digits, rest) ← readDigits? s
  if digits.head? = some '0' && digits ≠ ['0'] then none else return (digits, rest)

/-- A point with digits after it, or neither. -/
def readFraction? : List Char → Option (List Char × List Char)
  | '.' :: s => readDigits? s
  | s => some ([], s)

def readExponent? (s : List Char) : Option (Option Exponent × List Char) :=
  match s with
  | [] => some (none, [])
  | c :: rest =>
    if c = 'e' || c = 'E' then do
      let (sign, rest) := Sign.read rest
      let (digits, rest) ← readDigits? rest
      return (some ⟨sign, digits⟩, rest)
    else some (none, s)

def readUnsigned? (sign : Option Sign) (s : List Char) : Option (Numeral × List Char) := do
  let (whole, rest) ← readWhole? s
  let (fraction, rest) ← readFraction? rest
  let (exponent, rest) ← readExponent? rest
  return (⟨sign, whole, fraction, exponent⟩, rest)

def readNumeral? : List Char → Option (Numeral × List Char)
  | '-' :: s => readUnsigned? (some .minus) s
  | s => readUnsigned? none s

/-- What follows a word at the front. -/
def readWord? : List Char → List Char → Option (List Char)
  | [], s => some s
  | c :: word, d :: s => if c = d then readWord? word s else none
  | _ :: _, [] => none

mutual

/-- Reads a value at the front; `fuel` is more than the characters there are. -/
def readValue? (fuel : Nat) (s : List Char) : Option (Json × List Char) :=
  match fuel, skipBlanks s with
  | 0, _ => none
  | _ + 1, [] => none
  | fuel + 1, c :: s =>
    match c with
    | 'n' => (readWord? "ull".toList s).map fun rest => (.null, rest)
    | 't' => (readWord? "rue".toList s).map fun rest => (.boolean true, rest)
    | 'f' => (readWord? "alse".toList s).map fun rest => (.boolean false, rest)
    | '"' => (readString? s).map fun (text, rest) => (.string text, rest)
    | '[' =>
      match skipBlanks s with
      | ']' :: rest => some (.array [], rest)
      | _ => (readItems? fuel s).map fun (items, rest) => (.array items, rest)
    | '\x7b' =>
      match skipBlanks s with
      | '\x7d' :: rest => some (.object [], rest)
      | _ => (readMembers? fuel s).map fun (members, rest) => (.object members, rest)
    | c => (readNumeral? (c :: s)).map fun (n, rest) => (.number n, rest)

def readItems? (fuel : Nat) (s : List Char) : Option (List Json × List Char) :=
  match fuel with
  | 0 => none
  | fuel + 1 => do
    let (item, rest) ← readValue? fuel s
    match skipBlanks rest with
    | ',' :: rest => do
      let (items, rest) ← readItems? fuel rest
      return (item :: items, rest)
    | ']' :: rest => return ([item], rest)
    | _ => none

def readMembers? (fuel : Nat) (s : List Char) : Option (List (Option String × Json) × List Char) :=
  match fuel, skipBlanks s with
  | 0, _ => none
  | fuel + 1, '"' :: s => do
    let (name, rest) ← readString? s
    match skipBlanks rest with
    | ':' :: rest => do
      let (value, rest) ← readValue? fuel rest
      match skipBlanks rest with
      | ',' :: rest => do
        let (members, rest) ← readMembers? fuel rest
        return ((name, value) :: members, rest)
      | '\x7d' :: rest => return ([(name, value)], rest)
      | _ => none
    | _ => none
  | _ + 1, _ => none

end

def read? (source : String) : Option Json := do
  let (json, rest) ← readValue? (source.toList.length + 1) source.toList
  if skipBlanks rest = [] then return json else none

end Tariff.Json
