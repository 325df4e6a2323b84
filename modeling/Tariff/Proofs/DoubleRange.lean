import Tariff.Proofs.Rounding

/-!
# The range of doubles

Rounding to a double has two steps. A number goes to the nearest multiple of its unit
(`Rounding.nearestMultiple`), and this is a double unless it is too large. So the doubles nearest to two
numbers are finite just below the middle between the largest double and the next power of two
(`isFinite_doubleAt`, `lt_of_isFinite_doubleAt`), and a product of two rounded numbers is finite if the
product of the numbers themselves keeps a distance of two units from there (`isFinite_mul_doubleAt`).
-/

namespace Tariff

open Float.Model Float.Model.UnpackedFloat

namespace Rounding

variable {x y : ℚ} {sign : UnpackedFloat.Sign} {m : ℕ} {e : ℤ}

lemma roundEven_le (hx : 0 ≤ x) : (roundEven x : ℚ) ≤ x + 1 / 2 := by
  have hfloor := Nat.floor_le hx
  have hodd : ((⌊x⌋₊ % 2 : ℕ) : ℚ) ≤ 1 := by exact_mod_cast Nat.le_of_lt_succ (Nat.mod_lt _ two_pos)
  unfold roundEven
  split_ifs with hlt heq <;> push_cast <;> linarith

lemma le_roundEven (x : ℚ) : x - 1 / 2 ≤ roundEven x := by
  have hfloor := Nat.lt_floor_add_one x
  have hodd : (0 : ℚ) ≤ (⌊x⌋₊ % 2 : ℕ) := Nat.cast_nonneg _
  unfold roundEven
  split_ifs with hlt heq <;> push_cast <;> linarith

lemma roundEven_of_odd (hodd : m % 2 = 1) (hle : m + 1 / 2 ≤ x) (hlt : x < m + 1) :
    roundEven x = m + 1 := by
  have hm : (0 : ℚ) ≤ m := Nat.cast_nonneg m
  have hfloor : ⌊x⌋₊ = m := (Nat.floor_eq_iff (by linarith)).mpr ⟨by linarith, hlt⟩
  rw [roundEven, hfloor, if_neg hle.not_gt, hodd]
  split_ifs <;> rfl

/-- A number in its unit has at most 53 bits. -/
lemma div_unit_lt (x : ℚ) : x / 2 ^ unitExponent x < 2 ^ 53 := by
  rw [div_lt_iff₀ (by positivity), ← zpow_natCast, ← zpow_add₀ two_ne_zero]
  have hlog : x < 2 ^ (Int.log 2 x + 1) := by exact_mod_cast Int.lt_zpow_succ_log_self Nat.one_lt_two x
  refine hlog.trans_le (zpow_le_zpow_right₀ one_le_two ?_)
  unfold unitExponent
  omega

lemma roundEven_unit_le (hx : 0 < x) : roundEven (x / 2 ^ unitExponent x) ≤ 2 ^ 53 := by
  have hhalf := roundEven_le (x := x / 2 ^ unitExponent x) (by positivity)
  have hlt : (roundEven (x / 2 ^ unitExponent x) : ℚ) < (2 ^ 53 : ℕ) + 1 := by
    push_cast
    linarith [div_unit_lt x]
  exact Nat.lt_succ_iff.mp (by exact_mod_cast hlt)

lemma le_roundEven_unit (hx : 0 < x) :
    2 ^ 52 ≤ roundEven (x / 2 ^ unitExponent x) ∨ unitExponent x = -1074 := by
  by_cases hunit : -1074 < unitExponent x
  · refine .inl ((Nat.le_floor ?_).trans (floor_le_roundEven _))
    rw [le_div_iff₀ (by positivity), Nat.cast_pow, Nat.cast_ofNat, ← zpow_natCast,
      ← zpow_add₀ two_ne_zero, add_comm]
    exact zpow_unitExponent_le hx hunit
  · unfold unitExponent at hunit ⊢
    exact .inr (by omega)

lemma full_mantissa (e : ℤ) : ((2 ^ 53 : ℕ) : ℚ) * 2 ^ e = (2 ^ 52 : ℕ) * 2 ^ (e + 1) := by
  rw [zpow_add_one₀ two_ne_zero]
  push_cast
  ring

/-- A mantissa that was rounded up to one more bit is cut back without a loss. -/
lemma settled_eq_rounded (hm : 0 < m) (hle : m ≤ 2 ^ 53) (he : -1074 ≤ e)
    (hbits : 2 ^ 52 ≤ m ∨ e = -1074) : settled sign m e = rounded sign (m * 2 ^ e) := by
  rcases hle.lt_or_eq with hlt | rfl
  · have hlog : m.log2 < 53 := (Nat.log2_lt hm.ne').mpr hlt
    have hunit : max ((m.log2 : ℤ) + e - 52) (-1074) = e := by
      rcases hbits with hbits | rfl
      · have hlog' : 52 ≤ m.log2 := (Nat.le_log2 hm.ne').mpr hbits
        omega
      · omega
    rw [settled_of_le hm hunit.le, rounded_of_eq_mul hm rfl]
    rw [unitExponent, log_mul_zpow hm, hunit]
  · have hpos : 0 < 2 ^ 52 := by norm_num
    have hunit : unitExponent ((2 ^ 52 : ℕ) * 2 ^ (e + 1)) = e + 1 := by
      rw [unitExponent, log_mul_zpow hpos, Nat.log2_two_pow]
      omega
    have hshift := shiftToTargetExponent_eq (2 ^ 53) e
    have hone : (max (((2 ^ 53 : ℕ).log2 : ℤ) + e - 52) (-1074) - e).toNat = 1 := by
      rw [Nat.log2_two_pow]
      omega
    have hmantissa : (ExtendedMantissa.ofMantissaAndAccuracy (2 ^ 53) .exact >>> 1).mantissa = 2 ^ 52 := by
      rw [← ((represents_exact (2 ^ 53)).shiftRight 1).floor]
      norm_num
    rw [full_mantissa, rounded_of_eq_mul hpos rfl hunit, settled, hshift, hone]
    simp only [hmantissa]
    exact dif_neg hpos.ne'

/-- The multiple of its unit that a number is rounded to. -/
def nearestMultiple (x : ℚ) : ℚ :=
  roundEven (x / 2 ^ unitExponent x) * 2 ^ unitExponent x

theorem rounded_nearestMultiple (hx : 0 < x) : rounded sign (nearestMultiple x) = rounded sign x := by
  rcases Nat.eq_zero_or_pos (roundEven (x / 2 ^ unitExponent x)) with hzero | hpos
  · rw [nearestMultiple, rounded.eq_def sign x, hzero, Nat.cast_zero, zero_mul, rounded_zero, settled_zero]
  · exact (settled_eq_rounded hpos (roundEven_unit_le hx) (le_max_right _ _) (le_roundEven_unit hx)).symm

lemma doubleAt_nearestMultiple (hx : 0 < x) : doubleAt (nearestMultiple x) = doubleAt x := by
  rw [doubleAt, rounded_nearestMultiple hx, doubleAt]

lemma unitExponent_of_one_le (hx : 1 ≤ x) : -1074 < unitExponent x := by
  have hlog : 0 ≤ Int.log 2 x :=
    (Int.zpow_le_iff_le_log Nat.one_lt_two (by linarith)).mp (by simpa using hx)
  unfold unitExponent
  omega

lemma nearestMultiple_pos (hx : 1 ≤ x) : 0 < nearestMultiple x := by
  have hmantissa : 2 ^ 52 ≤ roundEven (x / 2 ^ unitExponent x) :=
    (le_roundEven_unit (by linarith)).resolve_right (unitExponent_of_one_le hx).ne'
  have hpos : 0 < roundEven (x / 2 ^ unitExponent x) := lt_of_lt_of_le (by norm_num) hmantissa
  unfold nearestMultiple
  positivity

/-- Rounding adds at most half a unit, which is little in proportion to the number. -/
lemma nearestMultiple_le (hx : 1 ≤ x) : nearestMultiple x ≤ x * (1 + 2 ^ (-53 : ℤ)) := by
  have hunit : 2 ^ (unitExponent x + 52) ≤ x :=
    zpow_unitExponent_le (by linarith) (unitExponent_of_one_le hx)
  have hhalf := roundEven_le (x := x / 2 ^ unitExponent x) (by positivity)
  rw [zpow_add₀ two_ne_zero] at hunit
  calc nearestMultiple x ≤ (x / 2 ^ unitExponent x + 1 / 2) * 2 ^ unitExponent x :=
        mul_le_mul_of_nonneg_right hhalf (by positivity)
    _ = x + 2 ^ unitExponent x / 2 := by field_simp
    _ ≤ x * (1 + 2 ^ (-53 : ℤ)) := by
      norm_num at hunit ⊢
      linarith

/-- The unit of the largest doubles. -/
@[irreducible]
def largestUnit : ℚ :=
  2 ^ (971 : ℤ)

lemma largestUnit_pos : 0 < largestUnit := by
  rw [largestUnit]
  exact zpow_pos two_pos _

lemma two_zpow_add (k : ℕ) : (2 : ℚ) ^ (971 + k : ℤ) = 2 ^ k * largestUnit := by
  rw [zpow_add₀ two_ne_zero, zpow_natCast, mul_comm, largestUnit]

lemma unitExponent_of_large (hle : 2 ^ 52 * largestUnit ≤ x) (hlt : x < 2 ^ 53 * largestUnit) :
    unitExponent x = 971 := by
  have hx : 0 < x := lt_of_lt_of_le (mul_pos (by norm_num) largestUnit_pos) hle
  have hlog : Int.log 2 x = 971 + (52 : ℕ) := by
    rw [← two_zpow_add] at hle hlt
    exact log_eq hx hle hlt
  rw [unitExponent, hlog]
  rfl

lemma isDouble_nearestMultiple (hx : 0 < x) (hpos : 0 < nearestMultiple x)
    (hlt : nearestMultiple x < 2 ^ 53 * largestUnit) : IsDouble (nearestMultiple x) := by
  unfold nearestMultiple at *
  have hle := roundEven_unit_le hx
  have hbits := le_roundEven_unit hx
  have hunit : -1074 ≤ unitExponent x := le_max_right _ _
  generalize unitExponent x = e at *
  generalize roundEven (x / 2 ^ e) = m at *
  have hm : 0 < m := by
    rw [Nat.pos_iff_ne_zero]
    rintro rfl
    simp at hpos
  have hroom {k : ℕ} (hk : 2 ^ k ≤ m) : k + e < 1024 := by
    rw [← two_zpow_add] at hlt
    rw [← zpow_lt_zpow_iff_right₀ (one_lt_two (α := ℚ)), zpow_add₀ two_ne_zero, zpow_natCast]
    refine lt_of_le_of_lt (mul_le_mul_of_nonneg_right ?_ (by positivity)) hlt
    exact_mod_cast hk
  rcases hle.lt_or_eq with hless | rfl
  · refine isDouble_mul_zpow hm hless hunit ?_
    rcases hbits with hbits | rfl
    · have hspace := hroom hbits
      omega
    · norm_num
  · have hspace := hroom le_rfl
    rw [full_mantissa]
    exact isDouble_mul_zpow (by norm_num) (by norm_num) (by omega) (by omega)

/-- Below the middle between the largest double and the next power of two, a number is rounded down to a
double. -/
lemma nearestMultiple_lt (hx : 0 < x) (h : x < (2 ^ 53 - 1 / 2) * largestUnit) :
    nearestMultiple x < 2 ^ 53 * largestUnit := by
  have hpos := largestUnit_pos
  rcases lt_or_ge x (2 ^ 52 * largestUnit) with hsmall | hlarge
  · have hlog : Int.log 2 x < 971 + (52 : ℕ) := by
      rw [← two_zpow_add] at hsmall
      exact (Int.lt_zpow_iff_log_lt Nat.one_lt_two hx).mp (by exact_mod_cast hsmall)
    have hmantissa : (roundEven (x / 2 ^ unitExponent x) : ℚ) ≤ 2 ^ 53 := by
      exact_mod_cast roundEven_unit_le hx
    calc nearestMultiple x ≤ 2 ^ 53 * 2 ^ unitExponent x :=
          mul_le_mul_of_nonneg_right hmantissa (by positivity)
      _ < 2 ^ 53 * largestUnit := by
        refine mul_lt_mul_of_pos_left ?_ (by norm_num)
        rw [largestUnit]
        refine zpow_lt_zpow_right₀ one_lt_two ?_
        unfold unitExponent
        omega
  · have hround := roundEven_le (x := x / largestUnit) (by positivity)
    have hmiddle : x / largestUnit < 2 ^ 53 - 1 / 2 := (div_lt_iff₀ hpos).mpr h
    rw [nearestMultiple, unitExponent_of_large hlarge (by linarith), ← largestUnit]
    exact mul_lt_mul_of_pos_right (by linarith) hpos

theorem isFinite_doubleAt (hx : 0 < x) (h : x < (2 ^ 53 - 1 / 2) * largestUnit) :
    (doubleAt x).isFinite = true := by
  change (doubleAt x).toModel.unpack.isFinite = true
  rw [← doubleAt_nearestMultiple hx]
  have hnonneg : 0 ≤ nearestMultiple x := by
    unfold nearestMultiple
    positivity
  rcases hnonneg.eq_or_lt with hzero | hpos
  · rw [← hzero, unpack_doubleAt_zero]
    rfl
  · obtain ⟨m, e, hm, hcanonical, heq⟩ := isDouble_nearestMultiple hx hpos (nearestMultiple_lt hx h)
    rw [heq, unpack_doubleAt hcanonical]
    rfl

/-- From the middle on, a number is rounded up to the power of two, and so to infinity. -/
theorem lt_of_isFinite_doubleAt (hx : 0 < x) (h : (doubleAt x).isFinite = true) :
    x < (2 ^ 53 - 1 / 2) * largestUnit := by
  by_contra hge
  rw [not_lt] at hge
  have hpos := largestUnit_pos
  have hinf : doubleAt x = .ofModel (.pack (.infinity .positive)) := by
    rcases le_or_gt (2 ^ 53 * largestUnit) x with hlarge | hlt
    · refine doubleAt_of_le ?_
      rwa [← two_zpow_add] at hlarge
    · have hround : roundEven (x / largestUnit) = (2 ^ 53 - 1) + 1 := by
        refine roundEven_of_odd (by norm_num) ?_ ?_
        · rw [le_div_iff₀ hpos]
          norm_num at hge ⊢
          exact hge
        · rw [div_lt_iff₀ hpos]
          norm_num at hlt ⊢
          exact hlt
      have hnearest : nearestMultiple x = 2 ^ 53 * largestUnit := by
        rw [nearestMultiple, unitExponent_of_large (by linarith) hlt, ← largestUnit, hround]
        norm_num
      rw [← doubleAt_nearestMultiple hx, hnearest, ← two_zpow_add]
      exact doubleAt_of_le le_rfl
  rw [hinf] at h
  revert h
  decide

/-- Only two doubles lie so close to the end. -/
lemma exists_doubleAt_of_large (hgt : (2 ^ 53 - 5 / 2) * largestUnit < x)
    (h : (doubleAt x).isFinite = true) :
    ∃ m hm, 2 ^ 53 - 2 ≤ m ∧ m < 2 ^ 53 ∧
      doubleAt x = .ofModel (.pack (.finite .positive m 971 hm)) := by
  have hunit := largestUnit_pos
  have hx : 0 < x := (mul_pos (by norm_num) hunit).trans hgt
  have hlt := lt_of_isFinite_doubleAt hx h
  have hdouble : doubleAt (roundEven (x / largestUnit) * largestUnit) = doubleAt x := by
    rw [← doubleAt_nearestMultiple hx, nearestMultiple, unitExponent_of_large (by linarith) (by linarith),
      ← largestUnit]
  have hbelow := le_roundEven (x / largestUnit)
  have habove := roundEven_le (x := x / largestUnit) (by positivity)
  rw [← lt_div_iff₀ hunit] at hgt
  rw [← div_lt_iff₀ hunit] at hlt
  generalize roundEven (x / largestUnit) = m at hdouble hbelow habove
  have hlow : 2 ^ 53 < m + 3 := by
    have hcast : ((2 ^ 53 : ℕ) : ℚ) < m + 3 := by
      push_cast
      linarith
    exact_mod_cast hcast
  have hhigh : m < 2 ^ 53 := by
    have hcast : (m : ℚ) < (2 ^ 53 : ℕ) := by
      push_cast
      linarith
    exact_mod_cast hcast
  have hcanonical : IsCanonical (.finite .positive m 971 (by omega)) :=
    ⟨hhigh, by norm_num, by norm_num, .inl (by omega)⟩
  rw [← hdouble, largestUnit, doubleAt_of_canonical hcanonical]
  exact ⟨m, _, by omega, hhigh, rfl⟩

theorem isFinite_mul_doubleAt (hx : 1 ≤ x) (hy : 1 ≤ y)
    (h : x * y ≤ (2 ^ 53 - 5 / 2) * largestUnit) : (doubleAt x * doubleAt y).isFinite = true := by
  have hunit := largestUnit_pos
  have hdouble (z : ℚ) (hz : 1 ≤ z) (hle : z ≤ x * y) : IsDouble (nearestMultiple z) := by
    have hpos : 0 < z := by linarith
    exact isDouble_nearestMultiple hpos (nearestMultiple_pos hz) (nearestMultiple_lt hpos (by linarith))
  have hxy : x ≤ x * y := le_mul_of_one_le_right (by linarith) hy
  have hyx : y ≤ x * y := le_mul_of_one_le_left (by linarith) hx
  rw [← doubleAt_nearestMultiple (x := x) (by linarith), ← doubleAt_nearestMultiple (x := y) (by linarith),
    mul_doubleAt (hdouble x hx hxy) (hdouble y hy hyx)]
  refine isFinite_doubleAt (mul_pos (nearestMultiple_pos hx) (nearestMultiple_pos hy)) ?_
  calc nearestMultiple x * nearestMultiple y
      ≤ (x * (1 + 2 ^ (-53 : ℤ))) * (y * (1 + 2 ^ (-53 : ℤ))) :=
        mul_le_mul (nearestMultiple_le hx) (nearestMultiple_le hy) (nearestMultiple_pos hy).le (by positivity)
    _ = (x * y) * (1 + 2 ^ (-53 : ℤ)) ^ 2 := by ring
    _ ≤ ((2 ^ 53 - 5 / 2) * largestUnit) * (1 + 2 ^ (-53 : ℤ)) ^ 2 :=
        mul_le_mul_of_nonneg_right h (by positivity)
    _ = ((2 ^ 53 - 5 / 2) * (1 + 2 ^ (-53 : ℤ)) ^ 2) * largestUnit := by ring
    _ < (2 ^ 53 - 1 / 2) * largestUnit := mul_lt_mul_of_pos_right (by norm_num) hunit

lemma isInf_zero_mul (y : Float) : (doubleAt 0 * y).isInf = false := by
  change (Float.Model.pack (UnpackedFloat.mul .binary64 (doubleAt 0).toModel.unpack
    y.toModel.unpack)).unpack.isInf = false
  rw [unpack_doubleAt_zero]
  cases y.toModel.unpack with
  | finite | zero => exact congrArg UnpackedFloat.isInf (unpack_pack (f := .zero _) trivial)
  | infinity | notANumber => exact congrArg UnpackedFloat.isInf (unpack_pack (f := .notANumber) trivial)

end Rounding

end Tariff
