import Tariff.Number.Format
import Tariff.Proofs.Rounding

/-!
# Written doubles

A decimal is read as the double nearest to its value (`Decimal.toFloat_eq`). The exact value of a finite
double reads back as the double (`Decimal.toFloat_ofFloat`), so the search for the shortest digits ends with
digits that do, too (`Decimal.toFloat_shortest`). A layout moves the point but keeps the value
(`NumberFormat.magnitude_layout`), so a written double is the nearest one to what is written, down to the
sign of zero (`NumberFormat.nearest_numeral`).
-/

namespace Tariff

open Float.Model Float.Model.UnpackedFloat Rounding

namespace Decimal

/-- The number that a decimal stands for. -/
def value (d : Decimal) : ℚ :=
  d.digits * 10 ^ d.exponent

/-- A decimal is read as the double nearest to its value. -/
theorem toFloat_eq (d : Decimal) : d.toFloat = doubleAt d.value :=
  nearestDouble_eq d.digits d.exponent

/-- A power of two is written out in decimal. -/
lemma value_of_binary (m : ℕ) (e : ℤ) :
    value (if 0 ≤ e then ⟨m * Nat.pow 2 e.toNat, 0⟩ else ⟨m * Nat.pow 5 e.natAbs, e⟩) = m * 2 ^ e := by
  split_ifs with he
  · obtain ⟨k, rfl⟩ := Int.eq_ofNat_of_zero_le he
    simp [value]
  · obtain ⟨k, rfl⟩ : ∃ k : ℕ, e = -k := Int.exists_eq_neg_ofNat (Int.not_le.mp he).le
    have hten : (10 : ℚ) ^ k = 5 ^ k * 2 ^ k := by
      rw [← mul_pow]
      norm_num
    rw [value, Int.natAbs_neg, Int.natAbs_natCast, zpow_neg, zpow_neg, zpow_natCast, zpow_natCast, hten,
      Nat.pow_eq]
    push_cast
    field_simp

/-- What the bits of a finite double say of its sign and its exact value. -/
lemma exists_sign {x : Float} (h : x.isFinite = true) : ∃ sign : UnpackedFloat.Sign,
    (hasMinus x = true ↔ sign = .negative) ∧
    (x.toModel.unpack = .zero sign ∧ (ofFloat x).value = 0 ∨
      ∃ m e hm, x.toModel.unpack = .finite sign m e hm ∧ (ofFloat x).value = m * 2 ^ e) := by
  obtain ⟨b, hb⟩ : ∃ b : BitVec Format.binary64.numBits, x.toModel.toBits.toBitVec = b := ⟨_, rfl⟩
  have hunpack : x.toModel.unpack = UnpackedFloat.unpack .binary64 b := by
    rw [← hb]
    rfl
  have hvalue : (ofFloat x).value =
      ((if b.toNat / 2 ^ 52 % 2 ^ 11 = 0 then b.toNat % 2 ^ 52 else 2 ^ 52 + b.toNat % 2 ^ 52 : ℕ) : ℚ) *
      2 ^ (if b.toNat / 2 ^ 52 % 2 ^ 11 = 0 then -1074
        else ((b.toNat / 2 ^ 52 % 2 ^ 11 : ℕ) : ℤ) - 1075) := by
    rw [← hb]
    exact value_of_binary _ _
  have hminus : hasMinus x = decide (2 ^ 63 ≤ b.toNat) := by
    rw [← hb]
    rfl
  rw [hunpack, hvalue]
  refine ⟨.ofBitVec (unpackSign b), ?_, ?_⟩
  · rw [hminus, ofBitVec_unpackSign, decide_eq_true_iff]
    split_ifs with hle
    · exact ⟨fun _ => rfl, fun _ => hle⟩
    · exact ⟨fun h => absurd h hle, nofun⟩
  · obtain hinf | ⟨hzero, hlow, hx⟩ | ⟨hzero, hm, hx⟩ | ⟨hne, -, hm, hx⟩ := unpack_cases b
    · rw [← hunpack] at hinf
      exact absurd (h.symm.trans hinf) (by decide)
    · rw [if_pos hzero, hlow, Nat.cast_zero, zero_mul]
      exact .inl ⟨hx, rfl⟩
    · rw [if_pos hzero, if_pos hzero]
      exact .inr ⟨_, _, hm, hx, rfl⟩
    · rw [if_neg hne, if_neg hne]
      exact .inr ⟨_, _, hm, hx, rfl⟩

end Decimal

section Finite

variable {x : Float}

lemma ofModel_pack_unpack (x : Float) : Float.ofModel (.pack x.toModel.unpack) = x :=
  Float.ofBits_toBits x

lemma unpack_abs (x : Float) : x.abs.toModel.unpack = x.toModel.unpack.abs := by
  refine unpack_pack ?_
  have h : IsCanonical x.toModel.unpack := isCanonical_unpack _
  cases hx : x.toModel.unpack with
  | finite => rwa [hx] at h
  | _ => trivial

lemma isFinite_abs (x : Float) : x.abs.isFinite = x.isFinite := by
  change x.abs.toModel.unpack.isFinite = x.toModel.unpack.isFinite
  rw [unpack_abs]
  cases x.toModel.unpack <;> rfl

lemma isNaN_of_isFinite (h : x.isFinite = true) : x.isNaN = false := by
  change x.toModel.unpack.isFinite = true at h
  change x.toModel.unpack.isNaN = false
  cases hx : x.toModel.unpack with
  | finite | zero => rfl
  | infinity | notANumber =>
    rw [hx] at h
    cases h

lemma isInf_of_isFinite (h : x.isFinite = true) : x.isInf = false := by
  change x.toModel.unpack.isFinite = true at h
  change x.toModel.unpack.isInf = false
  cases hx : x.toModel.unpack with
  | finite | zero => rfl
  | infinity | notANumber =>
    rw [hx] at h
    cases h

lemma abs_abs_float (x : Float) : x.abs.abs = x.abs := by
  change Float.ofModel (.pack x.abs.toModel.unpack.abs) = .ofModel (.pack x.toModel.unpack.abs)
  rw [unpack_abs]
  cases x.toModel.unpack <;> rfl

/-- A finite double is made of its sign and the double without it. -/
theorem apply_hasMinus_abs (h : x.isFinite = true) :
    Sign.apply (if hasMinus x then some .minus else none) x.abs = x := by
  obtain ⟨sign, hminus, hx⟩ := Decimal.exists_sign h
  have hneg : -x.abs = .ofModel (.pack x.toModel.unpack.abs.neg) := by
    rw [← unpack_abs]
    rfl
  cases sign with
  | negative =>
    have hsame : x.toModel.unpack.abs.neg = x.toModel.unpack := by
      obtain ⟨hx, -⟩ | ⟨m, e, hm, hx, -⟩ := hx <;> rw [hx] <;> rfl
    rw [if_pos (hminus.mpr rfl), Sign.apply, if_pos rfl, hneg, hsame, ofModel_pack_unpack]
  | positive =>
    have hsame : x.toModel.unpack.abs = x.toModel.unpack := by
      obtain ⟨hx, -⟩ | ⟨m, e, hm, hx, -⟩ := hx <;> rw [hx] <;> rfl
    rw [if_neg (by simp [hminus]), Sign.apply, if_neg (by decide)]
    change Float.ofModel (.pack x.toModel.unpack.abs) = x
    rw [hsame, ofModel_pack_unpack]

/-- The exact value of a finite double reads back as the double without its sign. -/
theorem Decimal.toFloat_ofFloat (h : x.isFinite = true) : (ofFloat x).toFloat = x.abs := by
  obtain ⟨sign, -, ⟨hx, hvalue⟩ | ⟨m, e, hm, hx, hvalue⟩⟩ := exists_sign h
  · rw [toFloat_eq, hvalue, doubleAt, rounded_zero]
    change _ = Float.ofModel (.pack x.toModel.unpack.abs)
    rw [hx]
    rfl
  · have hcanonical : IsCanonical x.toModel.unpack := isCanonical_unpack _
    rw [hx] at hcanonical
    rw [toFloat_eq, hvalue, doubleAt_of_canonical hcanonical]
    change _ = Float.ofModel (.pack x.toModel.unpack.abs)
    rw [hx]
    rfl

end Finite

namespace Decimal

variable {x : Float} {tie : Tie}

lemma value_withoutZeros (d : Decimal) : d.withoutZeros.value = d.value := by
  induction d using withoutZeros.induct with
  | case1 d hzero => rw [withoutZeros, if_pos hzero, value, value, hzero]; simp
  | case2 d hzero hten ih =>
    have hdigits : ((d.digits / 10 : ℕ) : ℚ) * 10 = d.digits := by
      exact_mod_cast Nat.div_mul_cancel (Nat.dvd_of_mod_eq_zero hten)
    rw [withoutZeros, if_neg hzero, if_pos hten, ih, value, value, zpow_add_one₀ (by norm_num), ← hdigits]
    ring
  | case3 d hzero hten => rw [withoutZeros, if_neg hzero, if_neg hten]

lemma exponent_withoutZeros (d : Decimal) (h : d.withoutZeros.digits = 0) : d.withoutZeros.exponent = 0 := by
  induction d using withoutZeros.induct with
  | case1 d hzero => rw [withoutZeros, if_pos hzero]
  | case2 d hzero hten ih =>
    rw [withoutZeros, if_neg hzero, if_pos hten] at h ⊢
    exact ih h
  | case3 d hzero hten =>
    rw [withoutZeros, if_neg hzero, if_neg hten] at h
    exact (hzero h).elim

lemma exists_shortest_eq_withoutZeros (tie : Tie) (x : Float) :
    ∃ d : Decimal, shortest tie x = d.withoutZeros := by
  unfold shortest
  dsimp only
  cases hfound : (List.range _).findSome? _ with
  | none => exact ⟨ofFloat x, rfl⟩
  | some d =>
    obtain ⟨i, -, hi⟩ := List.exists_of_findSome?_eq_some hfound
    obtain ⟨cut, -, hcut⟩ := List.mem_map.mp (List.mem_of_find?_eq_some hi)
    exact ⟨cut, hcut.symm⟩

/-- The shortest digits of a double read back as the double: either they were tried, or they are those of
its exact value. -/
theorem toFloat_shortest (h : x.isFinite = true) (tie : Tie) : (shortest tie x.abs).toFloat = x.abs := by
  unfold shortest
  dsimp only
  cases hfound : (List.range _).findSome? _ with
  | none =>
    rw [Option.getD_none, toFloat_eq, value_withoutZeros, ← toFloat_eq,
      toFloat_ofFloat ((isFinite_abs x).trans h), abs_abs_float]
  | some d =>
    obtain ⟨i, -, hi⟩ := List.exists_of_findSome?_eq_some hfound
    have hread := List.find?_some hi
    exact of_decide_eq_true hread

end Decimal

/-! ### Layouts -/

section Digits

variable {digits more : List Char}

lemma digitsValue_eq (digits : List Char) : digitsValue digits = Nat.ofDigitChars 10 digits 0 := rfl

lemma digitsValue_digitsOf (n : ℕ) : digitsValue (digitsOf n) = n := by
  rw [digitsValue_eq, digitsOf, Nat.ofDigitChars_ten_toDigits]

lemma digitsOf_ne_nil (n : ℕ) : digitsOf n ≠ [] := Nat.toDigits_ne_nil

lemma digitsValue_append (digits more : List Char) :
    digitsValue (digits ++ more) = digitsValue digits * 10 ^ more.length + digitsValue more := by
  rw [digitsValue_eq, Nat.ofDigitChars_append, Nat.ofDigitChars_eq_ofDigitChars_zero, mul_comm]
  rfl

lemma digitsValue_zeros (n : ℕ) : digitsValue (NumberFormat.zeros n) = 0 := by
  rw [digitsValue_eq, NumberFormat.zeros, Nat.ofDigitChars_replicate_zero, mul_zero]

end Digits

lemma Exponent.value_ofInt (e : ℤ) : (ofInt e).value = e := by
  unfold ofInt value
  rw [digitsValue_digitsOf]
  split_ifs with he h h
  · omega
  · simp at h
  · simp at h
  · omega

namespace Numeral

/-- The number that a numeral stands for but for its sign. -/
def magnitude (n : Numeral) : ℚ :=
  digitsValue (n.whole ++ n.fraction) * 10 ^ n.scale

lemma nearest_eq (n : Numeral) : n.nearest = Sign.apply n.sign (doubleAt n.magnitude) :=
  congrArg _ (nearestDouble_eq _ _)

end Numeral

namespace NumberFormat

variable {format : NumberFormat} {sign : Option Sign} {digits : List Char} {power : ℤ}

lemma magnitude_of_scale {n : Numeral} {value k : ℕ}
    (hdigits : digitsValue (n.whole ++ n.fraction) = value * 10 ^ k) (hscale : n.scale + k = power) :
    n.magnitude = value * 10 ^ power := by
  rw [Numeral.magnitude, hdigits, ← hscale, add_comm, zpow_add₀ (by norm_num), zpow_natCast]
  push_cast
  ring

/-- A layout keeps the number if only zeros stand behind the point of a whole one. -/
theorem magnitude_layout (hzeros : digitsValue format.wholeFraction = 0) (hne : digits ≠ []) :
    (format.layout sign digits power).magnitude = digitsValue digits * 10 ^ power := by
  have hlength : 0 < digits.length := List.length_pos_iff.mpr hne
  unfold layout
  dsimp only
  split_ifs with hpositional hpoint hpower
  · refine magnitude_of_scale (k := 0) ?_ ?_
    · change digitsValue (zeros (_ + 1) ++ digits) = _
      rw [digitsValue_append, digitsValue_zeros, zero_mul, zero_add, pow_zero, mul_one]
    · simp only [Numeral.scale, Option.map_none, Option.getD_none, List.length_append, zeros,
        List.length_replicate]
      omega
  · refine magnitude_of_scale (k := power.natAbs + format.wholeFraction.length) ?_ ?_
    · change digitsValue ((digits ++ zeros _) ++ _) = _
      rw [digitsValue_append, digitsValue_append, digitsValue_zeros, hzeros, zeros, List.length_replicate]
      ring
    · simp [Numeral.scale]
      omega
  · refine magnitude_of_scale (k := 0) ?_ ?_
    · simp only [List.take_append_drop, pow_zero, mul_one]
    · simp only [Numeral.scale, Option.map_none, Option.getD_none, List.length_drop]
      omega
  · refine magnitude_of_scale (k := 0) ?_ ?_
    · simp only [List.take_append_drop, pow_zero, mul_one]
    · simp only [Numeral.scale, Option.map_some, Option.getD_some, Exponent.value_ofInt, List.length_drop]
      omega

lemma sign_numeral (format : NumberFormat) (x : Float) :
    (format.numeral x).sign = if hasMinus x then some .minus else none := by
  unfold numeral layout
  dsimp only
  split_ifs <;> rfl

lemma doubleAt_magnitude_numeral (hzeros : digitsValue format.wholeFraction = 0) {x : Float}
    (h : x.isFinite = true) : doubleAt (format.numeral x).magnitude = x.abs := by
  have hvalue : (format.numeral x).magnitude = (Decimal.shortest format.tie x.abs).value := by
    rw [numeral, magnitude_layout hzeros (digitsOf_ne_nil _), digitsValue_digitsOf]
    rfl
  rw [hvalue, ← Decimal.toFloat_eq, Decimal.toFloat_shortest h]

/-- A written double is the nearest one to what is written. -/
theorem nearest_numeral (hzeros : digitsValue format.wholeFraction = 0) {x : Float}
    (h : x.isFinite = true) : (format.numeral x).nearest = x := by
  rw [Numeral.nearest_eq, sign_numeral, doubleAt_magnitude_numeral hzeros h, apply_hasMinus_abs h]

end NumberFormat

/-- A numeral of digits, with some before the point and in an exponent. -/
structure Numeral.OfDigits (n : Numeral) : Prop where
  whole_ne_nil : n.whole ≠ []
  whole : ∀ c ∈ n.whole, c.isDigit = true
  fraction : ∀ c ∈ n.fraction, c.isDigit = true
  exponent : ∀ e ∈ n.exponent, e.digits ≠ [] ∧ ∀ c ∈ e.digits, c.isDigit = true

lemma isDigit_of_mem_digitsOf {n : ℕ} : ∀ c ∈ digitsOf n, c.isDigit = true :=
  fun _ hc => Nat.isDigit_of_mem_toDigits (by norm_num) (by norm_num) hc

namespace NumberFormat

variable {format : NumberFormat} {sign : Option Sign} {digits : List Char} {power : ℤ}

lemma isDigit_of_mem_zeros {n : ℕ} : ∀ c ∈ zeros n, c.isDigit = true := by
  intro c hc
  rw [(List.mem_replicate.mp hc).2]
  rfl

lemma ofDigits_layout (hne : digits ≠ []) (hdigits : ∀ c ∈ digits, c.isDigit = true)
    (hfraction : ∀ c ∈ format.wholeFraction, c.isDigit = true) :
    (format.layout sign digits power).OfDigits := by
  have hlength : 0 < digits.length := List.length_pos_iff.mpr hne
  have hzeros (n : ℕ) : ∀ c ∈ zeros n, c.isDigit = true := isDigit_of_mem_zeros
  have htake (n : ℕ) : ∀ c ∈ digits.take n, c.isDigit = true :=
    fun c hc => hdigits c (List.mem_of_mem_take hc)
  have hdrop (n : ℕ) : ∀ c ∈ digits.drop n, c.isDigit = true :=
    fun c hc => hdigits c (List.mem_of_mem_drop hc)
  unfold layout
  dsimp only
  split_ifs with hpositional hpoint hpower
  · exact ⟨List.cons_ne_nil _ _, by simp, List.forall_mem_append.mpr ⟨hzeros _, hdigits⟩, nofun⟩
  · exact ⟨by simp [hne], List.forall_mem_append.mpr ⟨hdigits, hzeros _⟩, hfraction, nofun⟩
  · refine ⟨?_, htake _, hdrop _, nofun⟩
    rw [Ne, List.take_eq_nil_iff, not_or]
    exact ⟨by omega, hne⟩
  · refine ⟨by simp [List.take_eq_nil_iff, hne], htake _, hdrop _, ?_⟩
    rintro e ⟨⟩
    exact ⟨digitsOf_ne_nil _, isDigit_of_mem_digitsOf⟩

lemma ofDigits_numeral (hfraction : ∀ c ∈ format.wholeFraction, c.isDigit = true) (x : Float) :
    (format.numeral x).OfDigits :=
  ofDigits_layout (digitsOf_ne_nil _) isDigit_of_mem_digitsOf hfraction

/-- A layout puts no zero in front of other digits if none stands there before. -/
lemma leading_layout (hne : digits ≠ []) (hleading : digits.head? = some '0' → digits = ['0'] ∧ power = 0) :
    (format.layout sign digits power).whole.head? = some '0' →
      (format.layout sign digits power).whole = ['0'] := by
  unfold layout
  dsimp only
  split_ifs with hpositional hpoint hpower
  · exact fun _ => rfl
  · rw [List.head?_append_of_ne_nil _ hne]
    intro h
    obtain ⟨rfl, rfl⟩ := hleading h
    rfl
  · rw [List.head?_take, if_neg (by omega)]
    intro h
    obtain ⟨-, rfl⟩ := hleading h
    exact (hpower le_rfl).elim
  · obtain ⟨c, tail, rfl⟩ := List.exists_cons_of_ne_nil hne
    intro h
    obtain rfl : c = '0' := by simpa using h
    rfl

lemma digitsOf_eq_zero {n : ℕ} (h : (digitsOf n).head? = some '0') : n = 0 := by
  have hdigit : ∀ n < 10, Nat.digitChar n = '0' → n = 0 := by decide
  induction n using Nat.strong_induction_on with
  | _ n ih =>
    by_cases hn : n < 10
    · rw [digitsOf, Nat.toDigits_of_lt_base hn] at h
      exact hdigit n hn (Option.some_inj.mp h)
    · rw [digitsOf, Nat.toDigits_of_base_le (by norm_num) (by omega),
        List.head?_append_of_ne_nil _ Nat.toDigits_ne_nil] at h
      have htenth := ih (n / 10) (by omega) h
      omega

lemma leading_numeral (format : NumberFormat) (x : Float) :
    (format.numeral x).whole.head? = some '0' → (format.numeral x).whole = ['0'] := by
  refine leading_layout (digitsOf_ne_nil _) fun h => ?_
  have hzero := digitsOf_eq_zero h
  obtain ⟨d, hd⟩ := Decimal.exists_shortest_eq_withoutZeros format.tie x.abs
  rw [hd] at hzero ⊢
  rw [Decimal.exponent_withoutZeros d hzero, hzero]
  exact ⟨rfl, rfl⟩

end NumberFormat

end Tariff
