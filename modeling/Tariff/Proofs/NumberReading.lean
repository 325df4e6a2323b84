import Tariff.Number.Numeral
import Tariff.Proofs.Lexing

/-!
# What reads as a number

`readNumber?` gives a number literal its nearest double, and the negative of that one if there is a minus
in front of it (`readNumber?_of_isNumberLiteral`). Of the identifiers it reads the words for infinity and
for no number in any case, and no others (`readNumber?_of_isIdentifier`).
-/

namespace Tariff

/-- A text that reads as infinity. -/
def IsInfinityWord (s : List Char) : Prop :=
  s.map Char.toLower ∈ infinityWords

instance : DecidablePred IsInfinityWord := fun s =>
  inferInstanceAs (Decidable (s.map Char.toLower ∈ infinityWords))

/-- Letters and digits stand behind both signs. -/
lemma Sign.read_of_toNat {c : Char} (h : 46 ≤ c.toNat) (s : List Char) :
    read (c :: s) = (none, c :: s) := by
  unfold read
  split
  · next heq =>
    cases heq
    exact absurd h (by decide)
  · next heq =>
    cases heq
    exact absurd h (by decide)
  · rfl

section Identifiers

variable {s : List Char}

lemma Sign.read_of_isIdentifier (h : isIdentifier s = true) : read s = (none, s) := by
  cases s with
  | nil => cases h
  | cons c s =>
    rw [isIdentifier, Bool.and_eq_true] at h
    have hc := LexemeClass.toNat_of_startsIdentifier h.1
    exact read_of_toNat (by omega) s

/-- An identifier starts with neither a digit nor a point. -/
lemma Numeral.ofText?_of_isIdentifier (h : isIdentifier s = true) : ofText? s = none := by
  have hsign := Sign.read_of_isIdentifier h
  cases s with
  | nil => cases h
  | cons c s =>
    rw [isIdentifier, Bool.and_eq_true] at h
    have hdigit : ¬c.isDigit = true := by
      intro hc
      have hletter := LexemeClass.startsIdentifier_eq_false_of_isDigit hc
      rw [h.1] at hletter
      cases hletter
    have hpoint : readFraction (c :: s) = ([], c :: s) := by
      unfold readFraction
      split
      · next heq =>
        cases heq
        exact absurd h.1 (by decide)
      · rfl
    rw [ofText?, hsign]
    dsimp only
    rw [List.takeWhile_cons_of_neg hdigit, List.dropWhile_cons_of_neg hdigit, hpoint]
    rfl

/-- An identifier is a word for infinity, or what it counts for is no number. -/
theorem readNumber?_of_isIdentifier (h : isIdentifier s = true) :
    (readNumber? s).getD notANumber = if IsInfinityWord s then infinity else notANumber := by
  rw [readNumber?, Sign.read_of_isIdentifier h, Numeral.ofText?_of_isIdentifier h]
  change (if IsInfinityWord s then some infinity else if s.map Char.toLower = "nan".toList then
    some notANumber else none).getD notANumber = _
  by_cases hinfinity : IsInfinityWord s
  · rw [if_pos hinfinity, if_pos hinfinity, Option.getD_some]
  · rw [if_neg hinfinity, if_neg hinfinity]
    split <;> rfl

end Identifiers

section Literals

variable {whole fraction rest s : List Char} {sign : Option Sign}

lemma Numeral.ofText?_numeral (hne : whole ≠ []) (hwhole : ∀ c ∈ whole, c.isDigit = true)
    (hfraction : ∀ c ∈ fraction, c.isDigit = true)
    (hsign : Sign.read s = (sign, LexemeClass.numeral whole fraction)) :
    ofText? s = some ⟨sign, whole, fraction, none⟩ := by
  have hpoint : ¬Char.isDigit '.' = true := by decide
  rw [ofText?, hsign]
  dsimp only
  rw [LexemeClass.numeral, List.takeWhile_append_of_pos hwhole, List.dropWhile_append_of_pos hwhole]
  by_cases hnone : fraction = []
  · subst hnone
    rw [if_pos rfl, List.takeWhile_nil, List.append_nil, List.dropWhile_nil]
    simp [readFraction, hne, Exponent.ofText?]
  · have htake : fraction.takeWhile Char.isDigit = fraction := List.takeWhile_eq_self_iff.mpr hfraction
    have hdrop : fraction.dropWhile Char.isDigit = [] := List.dropWhile_eq_nil_iff.mpr hfraction
    rw [if_neg hnone, List.takeWhile_cons_of_neg hpoint, List.dropWhile_cons_of_neg hpoint,
      List.append_nil, readFraction, htake, hdrop]
    simp [hne, Exponent.ofText?]

/-- A text with a digit at its front is no word of letters. -/
lemma map_toLower_ne_of_isDigit {c d : Char} (hc : c.isDigit = true) (hd : d.isAlpha = true)
    (s word : List Char) : (c :: s).map Char.toLower ≠ d :: word := by
  intro heq
  rw [List.map_cons] at heq
  obtain ⟨rfl, -⟩ := List.cons.inj heq
  rw [Char.isAlpha_toLower_eq_isAlpha] at hd
  have hletter := toNat_of_isAlpha hd
  have hdigit := toNat_of_isDigit hc
  omega

/-- What is read after a sign that stands in front of digits is a numeral. -/
lemma readNumber?_of_digits {c : Char} (hc : c.isDigit = true) (hsign : Sign.read s = (sign, c :: rest)) :
    readNumber? s = (Numeral.ofText? s).map Numeral.nearest := by
  have hinfinity : ¬IsInfinityWord (c :: rest) := by
    intro hword
    rcases List.mem_cons.mp hword with heq | hword
    · exact map_toLower_ne_of_isDigit hc (by decide) rest _ heq
    · exact map_toLower_ne_of_isDigit hc (by decide) rest _ (List.mem_singleton.mp hword)
  have hnan : (c :: rest).map Char.toLower ≠ "nan".toList :=
    map_toLower_ne_of_isDigit hc (by decide) rest _
  rw [readNumber?, hsign]
  exact (if_neg hinfinity).trans (if_neg hnan)

lemma readNumber?_numeral (hne : whole ≠ []) (hwhole : ∀ c ∈ whole, c.isDigit = true)
    (hfraction : ∀ c ∈ fraction, c.isDigit = true)
    (hsign : Sign.read s = (sign, LexemeClass.numeral whole fraction)) :
    readNumber? s = some (Numeral.nearest ⟨sign, whole, fraction, none⟩) := by
  obtain ⟨c, digits, rfl⟩ := List.exists_cons_of_ne_nil hne
  rw [readNumber?_of_digits (hwhole c List.mem_cons_self) hsign,
    Numeral.ofText?_numeral hne hwhole hfraction hsign]
  rfl

lemma Sign.read_numeral (hne : whole ≠ []) (hwhole : ∀ c ∈ whole, c.isDigit = true)
    (fraction : List Char) :
    read (LexemeClass.numeral whole fraction) = (none, LexemeClass.numeral whole fraction) := by
  obtain ⟨c, digits, rfl⟩ := List.exists_cons_of_ne_nil hne
  have hcode := toNat_of_isDigit (hwhole c List.mem_cons_self)
  exact read_of_toNat (by omega) _

/-- A literal reads as a number, and with a minus in front of it as the negative of that number. -/
theorem readNumber?_of_isNumberLiteral (h : isNumberLiteral s = true) :
    ∃ z, readNumber? s = some z ∧ readNumber? ('-' :: s) = some (-z) := by
  obtain ⟨whole, fraction, hne, hwhole, hfraction, rfl⟩ :=
    LexemeClass.exists_numeral_of_isNumberLiteral h
  have hminus : Sign.read ('-' :: LexemeClass.numeral whole fraction) =
      (some .minus, LexemeClass.numeral whole fraction) := rfl
  exact ⟨Numeral.nearest ⟨none, whole, fraction, none⟩,
    readNumber?_numeral hne hwhole hfraction (Sign.read_numeral hne hwhole fraction),
    readNumber?_numeral hne hwhole hfraction hminus⟩

end Literals

end Tariff
