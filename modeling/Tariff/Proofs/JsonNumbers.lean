import Tariff.Json.Basic
import Tariff.Proofs.DoubleRange
import Tariff.Proofs.Lexing
import Tariff.Proofs.WrittenDoubles

/-!
# Numbers in JSON

A number is written in the fewest digits that tell it from the other doubles, but the reader rounds the
digits first and scales them afterwards, and this second rounding can miss the number that was written.
`Json.reread` is what a number comes back as. It is the number itself where neither the digits nor the
power of ten have to be rounded (`Json.reread_of_short`). It is always a number: the digits that are read
stand for no more than the double, so the roundings could only get out of range next to the largest double,
and there they do not (`Json.isSome_reread`).
-/

namespace Tariff

open Float.Model Float.Model.UnpackedFloat Rounding

variable {n : Numeral} {x : Float} {power : ℤ}

lemma digitsValue_lt {digits : List Char} (h : ∀ c ∈ digits, c.isDigit = true) :
    digitsValue digits < 10 ^ digits.length := by
  have hless (value : ℕ) : Nat.ofDigitChars 10 digits value < 10 ^ digits.length * (value + 1) := by
    induction digits generalizing value with
    | nil => simp
    | cons c digits ih =>
      obtain ⟨hc, hdigits⟩ := List.forall_mem_cons.mp h
      have hdigit : c.toNat - '0'.toNat ≤ 9 := by
        have hcode := toNat_of_isDigit hc
        have hzero : '0'.toNat = 48 := rfl
        omega
      rw [Nat.ofDigitChars_cons, List.length_cons, pow_succ, mul_assoc]
      exact (ih hdigits _).trans_le (Nat.mul_le_mul_left _ (by omega))
  rw [digitsValue_eq]
  simpa using hless 0

namespace NumberFormat

variable {format : NumberFormat} {sign : Option Sign} {digits : List Char}

lemma length_whole_layout (hpositional : ∀ k, format.positional k = true → k ≤ 15) (hne : digits ≠ []) :
    (format.layout sign digits power).whole.length ≤ 16 := by
  have hlength : 0 < digits.length := List.length_pos_iff.mpr hne
  unfold layout
  dsimp only
  split_ifs with hpoint hsmall hpower
  · simp
  · have hlow := hpositional _ hpoint
    rw [List.length_append, zeros, List.length_replicate]
    omega
  · have hlow := hpositional _ hpoint
    rw [List.length_take]
    omega
  · rw [List.length_take]
    omega

end NumberFormat

/-- The digits make up a double, and so does the power of ten or its inverse. -/
structure Numeral.Short (n : Numeral) : Prop where
  digits : digitsValue (n.whole ++ n.fraction) ≤ 2 ^ 53
  low : -22 ≤ n.scale
  high : n.scale ≤ 22

namespace Json

lemma le_ofDigitChars (digits : List Char) (value : ℕ) : value ≤ Nat.ofDigitChars 10 digits value := by
  rw [Nat.ofDigitChars_eq_ofDigitChars_zero]
  exact (Nat.le_mul_of_pos_left value (by positivity)).trans (Nat.le_add_right _ _)

/-- All digits are taken up if they fit. -/
lemma takeDigits_eq {digits : List Char} {value : ℕ} (h : Nat.ofDigitChars 10 digits value < 2 ^ 64) :
    takeDigits value digits = (Nat.ofDigitChars 10 digits value, []) := by
  induction digits generalizing value with
  | nil => rfl
  | cons c digits ih =>
    rw [Nat.ofDigitChars_cons] at h ⊢
    rw [takeDigits, ← ih h]
    exact if_pos ((le_ofDigitChars digits _).trans_lt h)

lemma takeDigits_le (value : ℕ) (digits : List Char) :
    (takeDigits value digits).1 * 10 ^ (takeDigits value digits).2.length ≤
      Nat.ofDigitChars 10 digits value := by
  induction digits generalizing value with
  | nil => simp [takeDigits]
  | cons c digits ih =>
    rw [takeDigits]
    split_ifs with hfits
    · exact ih _
    · rw [Nat.ofDigitChars_eq_ofDigitChars_zero, mul_comm]
      exact Nat.le_add_right _ _

lemma digitsValue_split (n : Numeral) :
    digitsValue (n.whole ++ n.fraction) = Nat.ofDigitChars 10 n.fraction (digitsValue n.whole) :=
  Nat.ofDigitChars_append 0

lemma readDouble_eq (h : digitsValue n.whole < 2 ^ 64) :
    readDouble n = (scaled (nearestDouble (takeDigits (digitsValue n.whole) n.fraction).1 0)
      (n.scale + (takeDigits (digitsValue n.whole) n.fraction).2.length)).map (Sign.apply n.sign) := by
  have hwhole : takeDigits 0 n.whole = (digitsValue n.whole, []) := takeDigits_eq h
  rw [readDouble, hwhole]
  dsimp only
  congr 2
  simp only [Numeral.scale, List.length_nil]
  ring

lemma nearestDouble_one (power : ℤ) : nearestDouble 1 power = doubleAt (10 ^ power) := by
  rw [nearestDouble_eq, Nat.cast_one, one_mul]

/-- A power of ten that is a double is multiplied or divided by without a rounding of its own. -/
lemma scaled_doubleAt {q : ℚ} (hq : q = 0 ∨ IsDouble q) (hlow : -22 ≤ power)
    (hhigh : power ≤ 22) (hfinite : (doubleAt (q * 10 ^ power)).isFinite = true) :
    scaled (doubleAt q) power = some (doubleAt (q * 10 ^ power)) := by
  rcases le_or_gt 0 power with hpos | hneg
  · obtain ⟨k, rfl⟩ := Int.eq_ofNat_of_zero_le hpos
    have hten : IsDouble (10 ^ k) := isDouble_ten_pow (by omega)
    have hmul : doubleAt q * nearestDouble 1 k = doubleAt (q * 10 ^ (k : ℤ)) := by
      rw [nearestDouble_one, zpow_natCast]
      rcases hq with rfl | hq
      · rw [zero_mul, zero_mul_doubleAt hten]
      · exact mul_doubleAt hq hten
    rw [scaled, if_pos hpos, if_pos (by omega)]
    dsimp only
    rw [hmul, isInf_of_isFinite hfinite]
    rfl
  · obtain ⟨k, rfl⟩ : ∃ k : ℕ, power = -k := Int.exists_eq_neg_ofNat hneg.le
    have hten : IsDouble (10 ^ k) := isDouble_ten_pow (by omega)
    have hdiv : doubleAt q / nearestDouble 1 k = doubleAt (q * 10 ^ (-k : ℤ)) := by
      rw [nearestDouble_one, zpow_natCast, zpow_neg, zpow_natCast, ← div_eq_mul_inv]
      rcases hq with rfl | hq
      · rw [zero_div, zero_div_doubleAt hten]
      · exact div_doubleAt hq hten
    rw [scaled, if_neg hneg.not_ge, if_pos (by omega), Int.natAbs_neg, Int.natAbs_natCast, hdiv]

/-- A short number is read as the double nearest to it. -/
theorem readDouble_of_short (h : n.Short) (hfinite : (doubleAt n.magnitude).isFinite = true) :
    readDouble n = some n.nearest := by
  have hdouble : ((digitsValue (n.whole ++ n.fraction) : ℕ) : ℚ) = 0 ∨
      IsDouble (digitsValue (n.whole ++ n.fraction)) := by
    rcases Nat.eq_zero_or_pos (digitsValue (n.whole ++ n.fraction)) with hzero | hpos
    · exact .inl (by rw [hzero, Nat.cast_zero])
    · exact .inr (isDouble_natCast hpos h.digits)
  have hfits : Nat.ofDigitChars 10 n.fraction (digitsValue n.whole) < 2 ^ 64 := by
    rw [← digitsValue_split]
    exact h.digits.trans_lt (by norm_num)
  have hwhole : digitsValue n.whole < 2 ^ 64 := (le_ofDigitChars n.fraction _).trans_lt hfits
  rw [readDouble_eq hwhole, takeDigits_eq hfits, ← digitsValue_split]
  dsimp only
  rw [List.length_nil, Nat.cast_zero, add_zero, nearestDouble_eq, zpow_zero, mul_one,
    scaled_doubleAt hdouble h.low h.high hfinite, Numeral.nearest_eq]
  rfl

/-! ### The range of numbers -/

/-- A number that is divided stays in range. -/
lemma isSome_scaled_of_neg (x : Float) (h : power < 0) : (scaled x power).isSome = true := by
  induction x, power using scaled.induct with
  | case1 x power hpos | case2 x power hpos | case3 x power hpos | case4 x power hpos => omega
  | case5 x power hneg hlow => rw [scaled, if_neg hneg, if_pos hlow, Option.isSome_some]
  | case6 x power hneg hlow hzero => rw [scaled, if_neg hneg, if_neg hlow, if_pos hzero, Option.isSome_some]
  | case7 x power hneg hlow hzero ih =>
    rw [scaled, if_neg hneg, if_neg hlow, if_neg hzero]
    exact ih (by omega)

lemma doubleAt_zero_beq : (doubleAt 0 == 0.0) = true := by
  rw [doubleAt, rounded_zero]
  decide

lemma isSome_scaled_zero (h : 0 ≤ power) : (scaled (doubleAt 0) power).isSome = true := by
  rw [scaled, if_pos h]
  split_ifs with hhigh hzero
  · dsimp only
    rw [isInf_zero_mul]
    rfl
  · rfl
  · exact absurd doubleAt_zero_beq hzero

lemma isSome_scaled {digits : ℕ} (h : digits * 10 ^ power ≤ (2 ^ 53 - 5 / 2) * largestUnit) :
    (scaled (nearestDouble digits 0) power).isSome = true := by
  rw [nearestDouble_eq, zpow_zero, mul_one]
  rcases lt_or_ge power 0 with hneg | hpos
  · exact isSome_scaled_of_neg _ hneg
  obtain ⟨k, rfl⟩ := Int.eq_ofNat_of_zero_le hpos
  rw [zpow_natCast] at h
  have hten : (1 : ℚ) ≤ 10 ^ k := one_le_pow₀ (by norm_num)
  rcases Nat.eq_zero_or_pos digits with rfl | hdigits
  · exact isSome_scaled_zero hpos
  have hone : (1 : ℚ) ≤ digits := by exact_mod_cast hdigits
  have hhigh : (k : ℤ) ≤ 308 := by
    by_contra hlarge
    have hfull : (2 : ℚ) ^ 53 * largestUnit < digits * 10 ^ k := calc
      2 ^ 53 * largestUnit = ((2 ^ 1024 : ℕ) : ℚ) := by
        rw [← two_zpow_add, Nat.cast_pow]
        rfl
      _ < ((10 ^ 309 : ℕ) : ℚ) := Nat.cast_lt.mpr (by decide +kernel)
      _ = 10 ^ 309 := by rw [Nat.cast_pow, Nat.cast_ofNat]
      _ ≤ 10 ^ k := pow_le_pow_right₀ (by norm_num) (by omega)
      _ ≤ digits * 10 ^ k := le_mul_of_one_le_left (by positivity) hone
    linarith [largestUnit_pos]
  have hfinite : (doubleAt digits * nearestDouble 1 k).isFinite = true := by
    rw [nearestDouble_one, zpow_natCast]
    exact isFinite_mul_doubleAt hone hten h
  rw [scaled, if_pos hpos, if_pos hhigh]
  dsimp only
  rw [isInf_of_isFinite hfinite]
  rfl

/-- What is read is scaled from digits that stand for no more than the number, since digits that do not fit
are left out. -/
lemma exists_scaled_of_readDouble (h : digitsValue n.whole < 2 ^ 64) :
    ∃ (digits : ℕ) (power : ℤ), digits * 10 ^ power ≤ n.magnitude ∧
      readDouble n = (scaled (nearestDouble digits 0) power).map (Sign.apply n.sign) := by
  refine ⟨_, _, ?_, readDouble_eq h⟩
  have hle := takeDigits_le (digitsValue n.whole) n.fraction
  rw [← digitsValue_split] at hle
  rw [add_comm n.scale, zpow_add₀ (by norm_num), zpow_natCast, ← mul_assoc, Numeral.magnitude]
  exact mul_le_mul_of_nonneg_right (by exact_mod_cast hle) (by positivity)

/-- The number that the text of a number is read as, or none if it is read as out of range. -/
def reread (x : Float) : Option Float :=
  readDouble (numberFormat.numeral x)

lemma digitsValue_wholeFraction : digitsValue numberFormat.wholeFraction = 0 := rfl

lemma ofDigits_numeral (x : Float) : (numberFormat.numeral x).OfDigits :=
  NumberFormat.ofDigits_numeral (show ∀ c ∈ ['0'], c.isDigit = true from List.forall_mem_singleton.mpr rfl) x

/-- A number that is written with few digits and a small power of ten comes back as it was. -/
theorem reread_of_short (hfinite : x.isFinite = true) (h : (numberFormat.numeral x).Short) :
    reread x = some x := by
  have hmagnitude : (doubleAt (numberFormat.numeral x).magnitude).isFinite = true := by
    rw [NumberFormat.doubleAt_magnitude_numeral digitsValue_wholeFraction hfinite, isFinite_abs, hfinite]
  rw [reread, readDouble_of_short h hmagnitude,
    NumberFormat.nearest_numeral digitsValue_wholeFraction hfinite]

/-- Whether a number is in range does not depend on its sign. -/
lemma isSome_reread_abs (x : Float) : (reread x.abs).isSome = (reread x).isSome := by
  have hsign (sign sign' : Option Sign) (digits : List Char) (power : ℤ) :
      (readDouble (numberFormat.layout sign digits power)).isSome =
        (readDouble (numberFormat.layout sign' digits power)).isSome := by
    unfold NumberFormat.layout
    dsimp only
    split_ifs <;> simp only [readDouble, Option.isSome_map]
  rw [reread, reread, NumberFormat.numeral, NumberFormat.numeral, abs_abs_float]
  exact hsign _ _ _ _

/-- The largest doubles are just in range again. -/
lemma isSome_reread_largest {m : ℕ} (hle : 2 ^ 53 - 2 ≤ m) (hlt : m < 2 ^ 53) (hm : 0 < m) :
    (reread (.ofModel (.pack (.finite .positive m 971 hm)))).isSome = true := by
  interval_cases m <;> revert hm <;> decide +kernel

/-- Every number that is written is read as a number. -/
theorem isSome_reread (h : x.isFinite = true) : (reread x).isSome = true := by
  have hmagnitude := NumberFormat.doubleAt_magnitude_numeral digitsValue_wholeFraction h
  have hlength : (numberFormat.numeral x).whole.length ≤ 16 :=
    NumberFormat.length_whole_layout (fun k hk => by simp [numberFormat] at hk; omega) (digitsOf_ne_nil _)
  have hwhole : digitsValue (numberFormat.numeral x).whole < 2 ^ 64 := calc
    digitsValue (numberFormat.numeral x).whole
      < 10 ^ (numberFormat.numeral x).whole.length := digitsValue_lt (ofDigits_numeral x).whole
    _ ≤ 10 ^ 16 := Nat.pow_le_pow_right (by norm_num) hlength
    _ < 2 ^ 64 := by norm_num
  obtain ⟨digits, power, hle, hread⟩ := exists_scaled_of_readDouble hwhole
  rcases le_or_gt (numberFormat.numeral x).magnitude ((2 ^ 53 - 5 / 2) * largestUnit) with hsmall | hlarge
  · rw [reread, hread, Option.isSome_map]
    exact isSome_scaled (hle.trans hsmall)
  · have hfinite : (doubleAt (numberFormat.numeral x).magnitude).isFinite = true := by
      rw [hmagnitude, isFinite_abs, h]
    obtain ⟨m, hm, hlow, hhigh, heq⟩ := exists_doubleAt_of_large hlarge hfinite
    rw [← isSome_reread_abs, ← hmagnitude, heq]
    exact isSome_reread_largest hlow hhigh hm

end Json

end Tariff
