import Mathlib
import Tariff.Number.Shortest

/-!
# Rounding to doubles

The arithmetic of doubles works on a mantissa and residual bits. Here it is led back to rational numbers:
`Rounding.rounded` is the double nearest to a number that is not negative, a mantissa with its accuracy is
rounded to it (`roundWithAccuracy_eq`), and so are products, quotients and decimals. What is read for a
decimal therefore depends on its value alone (`nearestDouble_eq`), and arithmetic with numbers that are
doubles already is rounded just once (`mul_doubleAt`, `div_doubleAt`).
-/

namespace Tariff

open Float.Model Float.Model.UnpackedFloat

namespace Rounding

/-- The natural number nearest to a number that is not negative, of two the even one. -/
def roundEven (x : ℚ) : ℕ :=
  if x < ⌊x⌋₊ + 1 / 2 then ⌊x⌋₊
  else if x = ⌊x⌋₊ + 1 / 2 then ⌊x⌋₊ + ⌊x⌋₊ % 2
  else ⌊x⌋₊ + 1

/-- The residual bits of a mantissa say how far a number lies above it. -/
def Represents (em : ExtendedMantissa) (x : ℚ) : Prop :=
  match em with
  | ⟨m, false, false⟩ => x = m
  | ⟨m, false, true⟩ => m < x ∧ x < m + 1 / 2
  | ⟨m, true, false⟩ => x = m + 1 / 2
  | ⟨m, true, true⟩ => m + 1 / 2 < x ∧ x < m + 1

section Represents

variable {em : ExtendedMantissa} {x : ℚ}

lemma represents_exact (m : ℕ) : Represents (.ofMantissaAndAccuracy m .exact) m := rfl

lemma represents_quotient (a : ℕ) {b : ℕ} (hb : 0 < b) :
    Represents (.ofMantissaAndAccuracy (a / b) (accuracyOfFraction (a % b) b)) (a / b) := by
  have hb' : (0 : ℚ) < b := by exact_mod_cast hb
  have ha : ((a / b : ℕ) : ℚ) * b + (a % b : ℕ) = a := by exact_mod_cast Nat.div_add_mod' a b
  have hrest : ((a % b : ℕ) : ℚ) < b := by exact_mod_cast Nat.mod_lt a hb
  rw [← ha, accuracyOfFraction, add_div, mul_div_cancel_right₀ _ hb'.ne']
  split
  · next h => simp [h, Represents, ExtendedMantissa.ofMantissaAndAccuracy]
  · next h =>
    have hpos : (0 : ℚ) < (a % b : ℕ) := by exact_mod_cast Nat.pos_of_ne_zero h
    rcases horder : compare (2 * (a % b)) b with _ | _ | _
    · have hlt : 2 * ((a % b : ℕ) : ℚ) < b := by exact_mod_cast Nat.compare_eq_lt.mp horder
      exact ⟨by linarith [div_pos hpos hb'], by rw [add_lt_add_iff_left, div_lt_iff₀ hb']; linarith⟩
    · have heq : 2 * ((a % b : ℕ) : ℚ) = b := by exact_mod_cast Nat.compare_eq_eq.mp horder
      change _ = _
      rw [add_right_inj, div_eq_iff hb'.ne']
      linarith
    · have hgt : (b : ℚ) < 2 * ((a % b : ℕ) : ℚ) := by exact_mod_cast Nat.compare_eq_gt.mp horder
      exact ⟨by rw [add_lt_add_iff_left, lt_div_iff₀ hb']; linarith,
        by rw [add_lt_add_iff_left, div_lt_one hb']; exact hrest⟩

lemma Represents.floor (h : Represents em x) : ⌊x⌋₊ = em.mantissa := by
  have hbounds : (em.mantissa : ℚ) ≤ x ∧ x < em.mantissa + 1 := by
    rcases em with ⟨m, _ | _, _ | _⟩ <;> simp only [Represents] at h <;> constructor <;> linarith
  exact (Nat.floor_eq_iff ((Nat.cast_nonneg _).trans hbounds.1)).mpr hbounds

lemma Represents.roundedMantissa (h : Represents em x) : em.roundedMantissa = roundEven x := by
  rw [roundEven, h.floor]
  rcases em with ⟨m, _ | _, _ | _⟩ <;> simp only [Represents] at h <;>
    simp only [ExtendedMantissa.roundedMantissa, ExtendedMantissa.accuracy, Accuracy.roundToNearestEven]
  · rw [if_pos (by linarith)]
  · rw [if_pos h.2]
  · rw [if_neg (by linarith), if_pos h]
  · rw [if_neg (by linarith), if_neg (by linarith)]

/-- A bit that is shifted out goes into the residual bits. -/
lemma Represents.shiftRightOne (h : Represents em x) : Represents em.shiftRightOne (x / 2) := by
  rcases em with ⟨m, roundBit, stickyBit⟩
  have hm : ((m / 2 : ℕ) : ℚ) * 2 + (m % 2 : ℕ) = m := by exact_mod_cast Nat.div_add_mod' m 2
  rcases Nat.mod_two_eq_zero_or_one m with hbit | hbit <;> cases roundBit <;> cases stickyBit <;>
    simp only [Represents, hbit, ← hm] at h <;>
    simp [Represents, ExtendedMantissa.shiftRightOne, hbit] <;> push_cast at h ⊢ <;>
    first | linarith | (constructor <;> linarith)

lemma Represents.shiftRight (h : Represents em x) (n : ℕ) : Represents (em >>> n) (x / 2 ^ n) := by
  change Represents (n.repeat ExtendedMantissa.shiftRightOne em) _
  induction n with
  | zero => simpa [Nat.repeat] using h
  | succ n ih =>
    rw [Nat.repeat, pow_succ, ← div_div]
    exact ih.shiftRightOne

end Represents

section Rounded

variable {x : ℚ} {sign : UnpackedFloat.Sign} {m : ℕ} {e : ℤ}

/-- The power of two of the last place of the doubles around a number. -/
def unitExponent (x : ℚ) : ℤ :=
  max (Int.log 2 x - 52) (-1074)

/-- A rounded mantissa, cut back to the bits that there are room for. -/
def settled (sign : UnpackedFloat.Sign) (m : ℕ) (e : ℤ) : UnpackedFloat :=
  let (final, exponent) := shiftToTargetExponent .binary64 m e .exact
  if h : final.mantissa = 0 then .zero sign
  else .finite sign final.mantissa exponent (Nat.pos_of_ne_zero h)

/-- The double nearest to a number that is not negative, before an exponent that is too large makes it
infinite. -/
def rounded (sign : UnpackedFloat.Sign) (x : ℚ) : UnpackedFloat :=
  settled sign (roundEven (x / 2 ^ unitExponent x)) (unitExponent x)

lemma log_eq {k : ℤ} (hx : 0 < x) (hle : 2 ^ k ≤ x) (hlt : x < 2 ^ (k + 1)) : Int.log 2 x = k := by
  have hk := (Int.zpow_le_iff_le_log Nat.one_lt_two hx).mp (by exact_mod_cast hle)
  have hk' := (Int.lt_zpow_iff_log_lt Nat.one_lt_two hx).mp (by exact_mod_cast hlt)
  omega

lemma log_mul_zpow (hm : 0 < m) (e : ℤ) : Int.log 2 ((m : ℚ) * 2 ^ e) = m.log2 + e := by
  have hpow : (0 : ℚ) < 2 ^ e := by positivity
  have hlow : (2 : ℚ) ^ m.log2 ≤ m := by exact_mod_cast (Nat.le_log2 hm.ne').mp le_rfl
  have hhigh : (m : ℚ) < 2 ^ (m.log2 + 1) := by exact_mod_cast Nat.lt_log2_self
  refine log_eq (by positivity) ?_ ?_
  · rw [zpow_add₀ two_ne_zero, zpow_natCast]
    exact mul_le_mul_of_nonneg_right hlow hpow.le
  · rw [add_right_comm, zpow_add₀ two_ne_zero (_ + 1)]
    exact mul_lt_mul_of_pos_right (by exact_mod_cast hhigh) hpow

lemma targetExponent_eq (m : ℕ) (e : ℤ) :
    Format.binary64.targetExponent (totalExponent m e) = max (m.log2 + e - 52) (-1074) := by
  simp only [Format.targetExponent, totalExponent, Format.mantissaBits, Format.minExponent]
  norm_num
  omega

/-- The unit of a number can be seen from what is left of it after any smaller unit. -/
lemma targetExponent_floor (hx : 0 < x) (he : e ≤ unitExponent x) :
    Format.binary64.targetExponent (totalExponent ⌊x / 2 ^ e⌋₊ e) = unitExponent x := by
  have hpow : (0 : ℚ) < 2 ^ e := by positivity
  rw [targetExponent_eq]
  rcases Nat.eq_zero_or_pos ⌊x / 2 ^ e⌋₊ with hzero | hpos
  · have hlt : x < 2 ^ e := by rwa [Nat.floor_eq_zero, div_lt_one hpow] at hzero
    have hlog : Int.log 2 x < e := (Int.lt_zpow_iff_log_lt Nat.one_lt_two hx).mp (by exact_mod_cast hlt)
    rw [hzero, Nat.log2_zero]
    unfold unitExponent at he ⊢
    omega
  · have hlow : (⌊x / 2 ^ e⌋₊ : ℚ) * 2 ^ e ≤ x :=
      (le_div_iff₀ hpow).mp (Nat.floor_le (by positivity))
    have hhigh : x < (⌊x / 2 ^ e⌋₊ + 1) * 2 ^ e := (div_lt_iff₀ hpow).mp (Nat.lt_floor_add_one _)
    have hsucc : ((⌊x / 2 ^ e⌋₊ : ℚ) + 1) ≤ 2 ^ (⌊x / 2 ^ e⌋₊.log2 + 1) := by
      exact_mod_cast Nat.lt_log2_self
    have hlog : Int.log 2 x = ⌊x / 2 ^ e⌋₊.log2 + e := by
      refine log_eq hx ?_ (hhigh.trans_le ?_)
      · have hself : (2 : ℚ) ^ ⌊x / 2 ^ e⌋₊.log2 ≤ ⌊x / 2 ^ e⌋₊ := by
          exact_mod_cast (Nat.le_log2 hpos.ne').mp le_rfl
        rw [zpow_add₀ two_ne_zero, zpow_natCast]
        exact (mul_le_mul_of_nonneg_right hself hpow.le).trans hlow
      · rw [add_right_comm, zpow_add₀ two_ne_zero (_ + 1)]
        exact mul_le_mul_of_nonneg_right (by exact_mod_cast hsucc) hpow.le
    rw [unitExponent, hlog]

/-- What is rounded is the number that a mantissa and its accuracy represent. -/
theorem roundWithAccuracy_eq {a : Accuracy} (hx : 0 < x) (he : e ≤ unitExponent x)
    (h : Represents (.ofMantissaAndAccuracy m a) (x / 2 ^ e)) :
    roundWithAccuracy .binary64 sign m e a = rounded sign x := by
  have hm : m = ⌊x / 2 ^ e⌋₊ := by
    rw [h.floor]
    rcases a with _ | ⟨_ | _ | _⟩ <;> rfl
  obtain ⟨n, hn⟩ : ∃ n : ℕ, unitExponent x - e = n := Int.eq_ofNat_of_zero_le (by omega)
  have hshift : shiftToTargetExponent .binary64 m e a =
      (ExtendedMantissa.ofMantissaAndAccuracy m a >>> n, unitExponent x) := by
    rw [shiftToTargetExponent, hm, targetExponent_floor hx he, shiftToExponent, hn, Int.toNat_natCast]
    exact congrArg (Prod.mk _) (by omega)
  have hround : (ExtendedMantissa.ofMantissaAndAccuracy m a >>> n).roundedMantissa =
      roundEven (x / 2 ^ unitExponent x) := by
    have hpow : x / 2 ^ unitExponent x = x / 2 ^ e / 2 ^ n := by
      rw [div_div, ← zpow_natCast, ← zpow_add₀ two_ne_zero]
      congr 2
      omega
    rw [hpow]
    exact (h.shiftRight n).roundedMantissa
  rw [roundWithAccuracy, hshift]
  dsimp only
  rw [hround]
  rfl

lemma roundEven_natCast (m : ℕ) : roundEven m = m :=
  (represents_exact m).roundedMantissa.symm

lemma zpow_unitExponent_le (hx : 0 < x) (h : -1074 < unitExponent x) :
    2 ^ (unitExponent x + 52) ≤ x := by
  have hlog : unitExponent x + 52 = Int.log 2 x := by
    unfold unitExponent at h ⊢
    omega
  rw [hlog]
  exact_mod_cast Int.zpow_log_le_self Nat.one_lt_two hx

lemma shiftToTargetExponent_eq (m : ℕ) (e : ℤ) :
    shiftToTargetExponent .binary64 m e .exact =
      (ExtendedMantissa.ofMantissaAndAccuracy m .exact >>> (max (m.log2 + e - 52) (-1074) - e).toNat,
        e + (max (m.log2 + e - 52) (-1074) - e).toNat) := by
  rw [shiftToTargetExponent, targetExponent_eq, shiftToExponent]

lemma settled_zero (e : ℤ) : settled sign 0 e = .zero sign := by
  have hfloor (n : ℕ) := ((represents_exact 0).shiftRight n).floor
  rw [settled, shiftToTargetExponent_eq]
  refine dif_pos ?_
  rw [← hfloor, Nat.cast_zero, zero_div, Nat.floor_zero]

/-- A mantissa that has room stays as it is. -/
lemma settled_of_le (hm : 0 < m) (h : max (m.log2 + e - 52) (-1074) ≤ e) :
    settled sign m e = .finite sign m e hm := by
  have hshift : shiftToTargetExponent .binary64 m e .exact =
      (ExtendedMantissa.ofMantissaAndAccuracy m .exact, e) := by
    rw [shiftToTargetExponent_eq, Int.toNat_eq_zero.mpr (by omega), Nat.cast_zero, add_zero]
    rfl
  rw [settled, hshift]
  exact dif_neg hm.ne'

/-- Numbers that are a multiple of their unit are not rounded. -/
theorem rounded_of_eq_mul (hm : 0 < m) (h : x = m * 2 ^ e) (he : unitExponent x = e) :
    rounded sign x = .finite sign m e hm := by
  have hpow : (2 : ℚ) ^ e ≠ 0 := by positivity
  rw [rounded, he, h, mul_div_cancel_right₀ _ hpow, roundEven_natCast]
  refine settled_of_le hm ?_
  rw [h, unitExponent, log_mul_zpow hm] at he
  exact he.le

lemma rounded_zero : rounded sign 0 = .zero sign := by
  rw [rounded, zero_div, show roundEven 0 = 0 from mod_cast roundEven_natCast 0, settled_zero]

lemma rounded_of_lt (hx : 0 < x) (h : x < 2 ^ (-1075 : ℤ)) : rounded sign x = .zero sign := by
  have hlog : Int.log 2 x < -1075 := (Int.lt_zpow_iff_log_lt Nat.one_lt_two hx).mp (by exact_mod_cast h)
  have hunit : unitExponent x = -1074 := by
    unfold unitExponent
    omega
  have hhalf : x / 2 ^ (-1074 : ℤ) < 1 / 2 := by
    rw [div_lt_iff₀ (by positivity)]
    refine h.trans_eq ?_
    rw [show (-1075 : ℤ) = -1 + -1074 by norm_num, zpow_add₀ two_ne_zero, zpow_neg_one, one_div]
  have hfloor : ⌊x / 2 ^ (-1074 : ℤ)⌋₊ = 0 := Nat.floor_eq_zero.mpr (by linarith)
  rw [rounded, hunit, roundEven, hfloor, if_pos (by simpa using hhalf), settled_zero]

lemma floor_le_roundEven (x : ℚ) : ⌊x⌋₊ ≤ roundEven x := by
  unfold roundEven
  split_ifs <;> omega

lemma exists_settled (hm : 0 < m) (he : -1074 ≤ e) :
    ∃ m' e' hm', settled sign m e = .finite sign m' e' hm' ∧ e ≤ e' := by
  have hshift := shiftToTargetExponent_eq m e
  generalize hn : (max (m.log2 + e - 52) (-1074) - e).toNat = n at hshift
  have hfloor := ((represents_exact m).shiftRight n).floor
  have hle : 2 ^ n ≤ m := (Nat.le_log2 hm.ne').mp (by omega)
  have hpos : 0 < (ExtendedMantissa.ofMantissaAndAccuracy m .exact >>> n).mantissa := by
    rw [← hfloor, Nat.floor_pos, one_le_div (by positivity)]
    exact_mod_cast hle
  refine ⟨_, _, hpos, ?_, le_add_of_nonneg_right (Int.natCast_nonneg n)⟩
  rw [settled, hshift]
  exact dif_neg hpos.ne'

lemma exists_rounded_of_le (h : 2 ^ (1024 : ℤ) ≤ x) :
    ∃ m e hm, rounded sign x = .finite sign m e hm ∧ 972 ≤ e := by
  have hx : 0 < x := lt_of_lt_of_le (by positivity) h
  have hlog : 1024 ≤ Int.log 2 x := (Int.zpow_le_iff_le_log Nat.one_lt_two hx).mp (by exact_mod_cast h)
  have hunit : 972 ≤ unitExponent x := by
    unfold unitExponent
    omega
  have hfloor : 0 < ⌊x / 2 ^ unitExponent x⌋₊ := by
    rw [Nat.floor_pos, one_le_div (by positivity)]
    refine le_trans ?_ (zpow_unitExponent_le hx (by omega))
    exact zpow_le_zpow_right₀ one_le_two (by omega)
  have hunit' : -1074 ≤ unitExponent x := by omega
  obtain ⟨m, e, hm, heq, hle⟩ :
      ∃ m e hm, settled sign _ _ = .finite sign m e hm ∧ unitExponent x ≤ e :=
    exists_settled (hfloor.trans_le (floor_le_roundEven _)) hunit'
  exact ⟨m, e, hm, heq, hunit.trans hle⟩

end Rounded

section Operations

variable {m n : ℕ} {d e : ℤ} {sign sign' : UnpackedFloat.Sign}

lemma mul_finite (hm : 0 < m) (hn : 0 < n)
    (hle : d + e ≤ unitExponent ((m * 2 ^ d) * (n * 2 ^ e))) :
    UnpackedFloat.mul .binary64 (.finite sign m d hm) (.finite sign' n e hn) =
      rounded (sign * sign') ((m * 2 ^ d) * (n * 2 ^ e)) := by
  have hproduct : ((m : ℚ) * 2 ^ d) * (n * 2 ^ e) = (m * n : ℕ) * 2 ^ (d + e) := by
    rw [zpow_add₀ two_ne_zero]
    push_cast
    ring
  refine roundWithAccuracy_eq (by positivity) hle ?_
  rw [hproduct, mul_div_cancel_right₀ _ (by positivity)]
  exact represents_exact _

/-- The quotient of two numbers has at most one bit less than their exponents say. -/
lemma le_log_div (hm : 0 < m) (hn : 0 < n) :
    (m.log2 + d) - (n.log2 + e) - 1 ≤ Int.log 2 (((m : ℚ) * 2 ^ d) / (n * 2 ^ e)) := by
  refine (Int.zpow_le_iff_le_log Nat.one_lt_two (by positivity)).mp ?_
  have hlow : (2 : ℚ) ^ m.log2 ≤ m := by exact_mod_cast (Nat.le_log2 hm.ne').mp le_rfl
  have hhigh : (n : ℚ) ≤ 2 ^ (n.log2 + 1) := by exact_mod_cast Nat.lt_log2_self.le
  rw [le_div_iff₀ (by positivity), Nat.cast_ofNat]
  calc (2 : ℚ) ^ ((m.log2 + d) - (n.log2 + e) - 1) * (n * 2 ^ e)
      ≤ 2 ^ ((m.log2 + d) - (n.log2 + e) - 1) * (2 ^ (n.log2 + 1) * 2 ^ e) := by gcongr
    _ = 2 ^ m.log2 * 2 ^ d := by
      rw [← zpow_natCast, ← zpow_natCast, ← zpow_add₀ two_ne_zero, ← zpow_add₀ two_ne_zero,
        ← zpow_add₀ two_ne_zero]
      congr 1
      push_cast
      ring
    _ ≤ m * 2 ^ d := by gcongr

lemma div_finite (hm : 0 < m) (hn : 0 < n) :
    UnpackedFloat.div .binary64 (.finite sign m d hm) (.finite sign' n e hn) =
      rounded (sign / sign') ((m * 2 ^ d) / (n * 2 ^ e)) := by
  have hlog := le_log_div (d := d) (e := e) hm hn
  obtain ⟨t, ht⟩ : ∃ t, t = min (d - e)
      (Format.binary64.targetExponent (totalExponent m d - totalExponent n e)) := ⟨_, rfl⟩
  have htarget : Format.binary64.targetExponent (totalExponent m d - totalExponent n e) =
      max ((m.log2 + d) - (n.log2 + e) - 53) (-1074) := by
    simp only [Format.targetExponent, totalExponent, Format.mantissaBits, Format.minExponent]
    norm_num
    omega
  obtain ⟨k, hk⟩ : ∃ k : ℕ, d - e - t = k := Int.eq_ofNat_of_zero_le (by omega)
  have hquotient : ((m : ℚ) * 2 ^ d) / (n * 2 ^ e) / 2 ^ t = (m <<< k : ℕ) / n := by
    have hpow : (2 : ℚ) ^ d = 2 ^ k * 2 ^ t * 2 ^ e := by
      rw [← zpow_natCast, ← hk, ← zpow_add₀ two_ne_zero, ← zpow_add₀ two_ne_zero]
      congr 1
      ring
    rw [hpow, Nat.shiftLeft_eq]
    push_cast
    field_simp
  have hround : roundWithAccuracy .binary64 (sign / sign') _ t _ =
      rounded (sign / sign') (((m : ℚ) * 2 ^ d) / (n * 2 ^ e)) :=
    roundWithAccuracy_eq (by positivity) (by unfold unitExponent; omega)
      (by rw [hquotient]; exact represents_quotient (m <<< k) hn)
  rw [← hround, UnpackedFloat.div, divCore]
  dsimp only
  rw [← ht, hk]
  rfl

end Operations

/-! ### Bits -/

section Bits

variable {m : ℕ} {e : ℤ} {sign : UnpackedFloat.Sign} {f : UnpackedFloat}

/-- The unpacked form that doubles have: no mantissa is longer than 53 bits, and only the smallest numbers
have a shorter one. -/
def IsCanonical : UnpackedFloat → Prop
  | .finite _ m e _ => m < 2 ^ 53 ∧ -1074 ≤ e ∧ e ≤ 971 ∧ (2 ^ 52 ≤ m ∨ e = -1074)
  | _ => True

lemma toNat_unpackMantissa (b : BitVec Format.binary64.numBits) :
    (unpackMantissa b).toNat = b.toNat % 2 ^ 52 := by
  rw [unpackMantissa_def, BitVec.extractLsb'_toNat, Nat.shiftRight_zero]

lemma toNat_unpackExponent (b : BitVec Format.binary64.numBits) :
    (unpackExponent b).toNat = b.toNat / 2 ^ 52 % 2 ^ 11 := by
  rw [unpackExponent_def, BitVec.extractLsb'_toNat, Nat.shiftRight_eq_div_pow]

lemma toNat_one_append (b : BitVec 52) : (1#1 ++ b).toNat = 2 ^ 52 + b.toNat := by
  rw [BitVec.toNat_append, ← Nat.shiftLeft_add_eq_or_of_lt b.isLt]
  rfl

lemma ofBitVec_unpackSign (b : BitVec Format.binary64.numBits) :
    Sign.ofBitVec (unpackSign b) = if 2 ^ 63 ≤ b.toNat then .negative else .positive := by
  have hlt : b.toNat < 2 ^ 64 := b.isLt
  have hsign : (unpackSign b).toNat = b.toNat / 2 ^ 63 % 2 := by
    rw [unpackSign_def, BitVec.extractLsb'_toNat, Nat.shiftRight_eq_div_pow]
    rfl
  have hzero : unpackSign b = 0#1 ↔ ¬2 ^ 63 ≤ b.toNat := by
    rw [← BitVec.toNat_inj, hsign, BitVec.toNat_ofNat]
    omega
  unfold Sign.ofBitVec
  split_ifs with h h' <;> first | rfl | exact absurd h' (hzero.mp h) | exact absurd (hzero.mpr ‹_›) h

/-- What the bits of a double say: nothing finite, zero, a number without the leading bit, or one with it. -/
lemma unpack_cases (b : BitVec Format.binary64.numBits) :
    (UnpackedFloat.unpack .binary64 b).isFinite = false ∨
    (b.toNat / 2 ^ 52 % 2 ^ 11 = 0 ∧ b.toNat % 2 ^ 52 = 0 ∧
      UnpackedFloat.unpack .binary64 b = .zero (.ofBitVec (unpackSign b))) ∨
    (b.toNat / 2 ^ 52 % 2 ^ 11 = 0 ∧ ∃ hm, UnpackedFloat.unpack .binary64 b =
      .finite (.ofBitVec (unpackSign b)) (b.toNat % 2 ^ 52) (-1074) hm) ∨
    (b.toNat / 2 ^ 52 % 2 ^ 11 ≠ 0 ∧ b.toNat / 2 ^ 52 % 2 ^ 11 < 2 ^ 11 - 1 ∧
      ∃ hm, UnpackedFloat.unpack .binary64 b = .finite (.ofBitVec (unpackSign b))
        (2 ^ 52 + b.toNat % 2 ^ 52) ((b.toNat / 2 ^ 52 % 2 ^ 11 : ℕ) - 1075) hm) := by
  have hexponent : (unpackExponent b).toNat < 2 ^ 11 := (unpackExponent b).isLt
  have hone := toNat_one_append (unpackMantissa b)
  have hbias : Format.binary64.exponentBias = 1023 := rfl
  rw [← toNat_unpackMantissa, ← toNat_unpackExponent]
  unfold UnpackedFloat.unpack
  dsimp only
  split
  · split <;> exact .inl rfl
  · next hinf =>
    have hne : (unpackExponent b).toNat ≠ 2 ^ 11 - 1 := fun h => hinf (BitVec.eq_of_toNat_eq h)
    split
    · next hzero =>
      rw [hzero, hbias]
      split
      · next hnone => exact .inr (.inl ⟨rfl, by rw [hnone]; rfl, rfl⟩)
      · next hsome =>
        exact .inr (.inr (.inl ⟨rfl, Nat.pos_of_ne_zero fun h => hsome (BitVec.eq_of_toNat_eq h), rfl⟩))
    · next hzero =>
      have hne' : (unpackExponent b).toNat ≠ 0 := fun h => hzero (BitVec.eq_of_toNat_eq h)
      refine .inr (.inr (.inr ⟨hne', by omega, by omega, ?_⟩))
      simp only [hone, hbias]
      rfl

lemma isCanonical_unpack (b : BitVec Format.binary64.numBits) :
    IsCanonical (UnpackedFloat.unpack .binary64 b) := by
  obtain h | ⟨-, -, h⟩ | ⟨-, hm, h⟩ | ⟨hne, hlt, hm, h⟩ := unpack_cases b
  · generalize UnpackedFloat.unpack .binary64 b = f at h
    cases f with
    | finite => cases h
    | _ => trivial
  · rw [h]
    trivial
  · have hlow : b.toNat % 2 ^ 52 < 2 ^ 52 := Nat.mod_lt _ (by norm_num)
    rw [h]
    exact ⟨by omega, le_rfl, by norm_num, .inr rfl⟩
  · have hlow : b.toNat % 2 ^ 52 < 2 ^ 52 := Nat.mod_lt _ (by norm_num)
    rw [h]
    exact ⟨by omega, by omega, by omega, .inl (by omega)⟩

lemma unpack_packComponents_normal {biased : ℕ} (hm : 2 ^ 52 ≤ m) (hm' : m < 2 ^ 53) (hpos : 0 < biased)
    (hlt : biased < 2 ^ 11 - 1) :
    ∃ h, UnpackedFloat.unpack .binary64
        (packComponents .binary64 sign (.ofNat 11 biased) (.ofNat 52 m)) =
      .finite sign m (biased - 1075) h := by
  have hexponent : (BitVec.ofNat 11 biased).toNat = biased := Nat.mod_eq_of_lt (by omega)
  have hmantissa : (1#1 ++ BitVec.ofNat 52 m).toNat = m := by
    rw [toNat_one_append, BitVec.toNat_ofNat]
    omega
  have hinf : BitVec.ofNat 11 biased ≠ -1#11 := by
    intro h
    have h := congrArg BitVec.toNat h
    rw [hexponent] at h
    exact hlt.ne h
  have hzero : BitVec.ofNat 11 biased ≠ 0#11 := by
    intro h
    have h := congrArg BitVec.toNat h
    rw [hexponent] at h
    exact hpos.ne' h
  refine ⟨by omega, ?_⟩
  simp only [UnpackedFloat.unpack, unpackMantissa_packComponents, unpackExponent_packComponents,
    unpackSign_packComponents, Sign.ofBitVec_toBitVec, if_neg hinf, if_neg hzero, hexponent, hmantissa]
  rfl

lemma unpack_packComponents_subnormal (hm : 0 < m) (hm' : m < 2 ^ 52) :
    UnpackedFloat.unpack .binary64 (packComponents .binary64 sign 0#11 (.ofNat 52 m)) =
      .finite sign m (-1074) hm := by
  have hmantissa : (BitVec.ofNat 52 m).toNat = m := Nat.mod_eq_of_lt hm'
  have hinf : (0#11 : BitVec 11) ≠ -1#11 := by decide
  have hsome : BitVec.ofNat 52 m ≠ 0#52 := by
    intro h
    have h := congrArg BitVec.toNat h
    rw [hmantissa] at h
    exact hm.ne' h
  simp only [UnpackedFloat.unpack, unpackMantissa_packComponents, unpackExponent_packComponents,
    unpackSign_packComponents, Sign.ofBitVec_toBitVec, if_neg hinf, dif_neg hsome, hmantissa]
  rfl

/-- Packing loses nothing of such a form. -/
theorem unpack_pack (h : IsCanonical f) : (Float.Model.pack f).unpack = f := by
  change UnpackedFloat.unpack .binary64 (UnpackedFloat.pack .binary64 f) = f
  rcases f with s | _ | s | ⟨s, m, e, hm⟩
  · simp [UnpackedFloat.pack, UnpackedFloat.unpack, packedInfinity]
  · exact unpack_packedNaN
  · exact unpack_packedZero
  · obtain ⟨hlt, hle, hge, hbits⟩ := h
    obtain ⟨biased, hbiased⟩ : ∃ biased : ℕ, e + 1075 = biased := Int.eq_ofNat_of_zero_le (by omega)
    have htoNat : (e + Format.binary64.exponentBias + (52 : ℕ)).toNat = biased := by
      rw [show Format.binary64.exponentBias = 1023 from rfl]
      omega
    have hfits : ¬2 ^ 11 ≤ biased + 1 := by omega
    simp only [UnpackedFloat.pack, htoNat, if_neg hfits]
    by_cases hnormal : 2 ^ 52 ≤ m
    · have hlog : m.log2 + 1 = Format.binary64.mantissaBits := by
        rw [(Nat.log2_eq_iff hm.ne').mpr ⟨hnormal, hlt⟩]
        rfl
      have hpositive : 0 < biased := by omega
      have hbounded : biased < 2 ^ 11 - 1 := by omega
      obtain ⟨_, hunpack⟩ := unpack_packComponents_normal hnormal hlt hpositive hbounded
      rw [if_pos hlog, hunpack]
      congr 1
      omega
    · have hlog : m.log2 + 1 ≠ Format.binary64.mantissaBits := by
        have hless := (Nat.log2_lt hm.ne').mpr (Nat.lt_of_not_le hnormal)
        rw [show Format.binary64.mantissaBits = 53 from rfl]
        omega
      obtain rfl := hbits.resolve_left hnormal
      rw [if_neg hlog, unpack_packComponents_subnormal hm (Nat.lt_of_not_le hnormal)]

end Bits

/-! ### Doubles -/

/-- The double nearest to a number that is not negative. -/
def doubleAt (x : ℚ) : Float :=
  .ofModel (.pack (rounded .positive x))

/-- An exponent that is too large makes a number infinite. -/
lemma pack_of_le {m : ℕ} {e : ℤ} {sign : UnpackedFloat.Sign} {hm : 0 < m} (he : 972 ≤ e) :
    Float.Model.pack (.finite sign m e hm) = .pack (.infinity sign) := by
  have hinf : 2 ^ 11 ≤ (e + Format.binary64.exponentBias + (52 : ℕ)).toNat + 1 := by
    rw [show Format.binary64.exponentBias = 1023 from rfl]
    omega
  simp only [Float.Model.pack, UnpackedFloat.pack, if_pos hinf]

lemma doubleAt_of_le {x : ℚ} (h : 2 ^ (1024 : ℤ) ≤ x) :
    doubleAt x = .ofModel (.pack (.infinity .positive)) := by
  obtain ⟨m, e, hm, heq, he⟩ : ∃ m e hm, rounded .positive x = .finite .positive m e hm ∧ 972 ≤ e :=
    exists_rounded_of_le h
  rw [doubleAt, heq, pack_of_le he]

section Scientific

variable {m : ℕ} {e : ℤ}

lemma doubleAt_of_lt (hm : 0 < m) (he : e < -(2048 + m.log2)) :
    doubleAt (m * 10 ^ e) = .ofModel (.pack (.zero .positive)) := by
  obtain ⟨k, rfl⟩ : ∃ k : ℕ, e = -k := Int.exists_eq_neg_ofNat (by omega)
  have hless : m * 2 ^ 1075 < 10 ^ k := calc
    m * 2 ^ 1075 < 2 ^ (m.log2 + 1) * 2 ^ 1075 := by gcongr; exact Nat.lt_log2_self
    _ ≤ 2 ^ k := by
      rw [← pow_add]
      exact Nat.pow_le_pow_right two_pos (by omega)
    _ ≤ 10 ^ k := Nat.pow_le_pow_left (by norm_num) k
  rw [doubleAt, rounded_of_lt (by positivity)]
  rw [zpow_neg, zpow_natCast, zpow_neg, ← div_eq_mul_inv, div_lt_iff₀ (by positivity), inv_mul_eq_div,
    lt_div_iff₀ (by positivity)]
  exact_mod_cast hless

lemma mul_scientific (hm : 0 < m) (he : 0 ≤ e) (h h') :
    UnpackedFloat.mul .binary64 (.finite .positive (m <<< 53) (-53) h)
      (.finite .positive (10 ^ e.toNat) 0 h') = rounded .positive (m * 10 ^ e) := by
  have hone : (1 : ℚ) ≤ m * 10 ^ e :=
    one_le_mul_of_one_le_of_one_le (by exact_mod_cast hm) (one_le_zpow₀ (by norm_num) he)
  have hvalue :
      (((m <<< 53 : ℕ) : ℚ) * 2 ^ (-53 : ℤ)) * ((10 ^ e.toNat : ℕ) * 2 ^ (0 : ℤ)) = m * 10 ^ e := by
    obtain ⟨k, rfl⟩ := Int.eq_ofNat_of_zero_le he
    rw [Nat.shiftLeft_eq, Int.toNat_natCast, zpow_natCast]
    push_cast
    field_simp
    norm_num
  have hlog : 0 ≤ Int.log 2 ((m : ℚ) * 10 ^ e) :=
    (Int.zpow_le_iff_le_log Nat.one_lt_two (by linarith)).mp (by simpa using hone)
  rw [mul_finite h h', hvalue]
  · rfl
  · rw [hvalue]
    unfold unitExponent
    omega

lemma div_scientific (he : e < 0) (h h') :
    UnpackedFloat.div .binary64 (.finite .positive m 0 h)
      (.finite .positive (10 ^ (-e).toNat) 0 h') = rounded .positive (m * 10 ^ e) := by
  have hvalue : ((m : ℚ) * 2 ^ (0 : ℤ)) / ((10 ^ (-e).toNat : ℕ) * 2 ^ (0 : ℤ)) = m * 10 ^ e := by
    obtain ⟨k, rfl⟩ : ∃ k : ℕ, e = -k := Int.exists_eq_neg_ofNat he.le
    rw [neg_neg, Int.toNat_natCast, zpow_neg, zpow_natCast, zpow_zero]
    push_cast
    ring
  rw [div_finite h h', hvalue]
  rfl

/-- What is read for a decimal depends on its value alone. -/
theorem nearestDouble_eq (m : ℕ) (e : ℤ) : nearestDouble m e = doubleAt (m * 10 ^ e) := by
  change Float.ofModel (.pack (UnpackedFloat.ofScientific .binary64 m e)) = _
  rw [UnpackedFloat.ofScientific]
  have hbits : (2 ^ Format.binary64.exponentBits : ℤ) = 2048 := rfl
  split_ifs with hm hlarge hsmall he
  · rw [hm, Nat.cast_zero, zero_mul, doubleAt, rounded_zero]
  · have hone : (1 : ℚ) ≤ m := by exact_mod_cast Nat.pos_of_ne_zero hm
    rw [doubleAt_of_le]
    calc (2 : ℚ) ^ (1024 : ℤ) ≤ 10 ^ (1024 : ℤ) :=
          zpow_le_zpow_left₀ (by norm_num) (by norm_num) (by norm_num)
      _ ≤ 10 ^ e := zpow_le_zpow_right₀ (by norm_num) (by omega)
      _ ≤ m * 10 ^ e := le_mul_of_one_le_left (by positivity) hone
  · rw [doubleAt_of_lt (Nat.pos_of_ne_zero hm) (by omega)]
  · exact congrArg _ (congrArg _ (mul_scientific (Nat.pos_of_ne_zero hm) he _ _))
  · exact congrArg _ (congrArg _ (div_scientific (Int.not_le.mp he) _ _))

end Scientific

section Canonical

variable {m n : ℕ} {d e : ℤ} {sign : UnpackedFloat.Sign} {x y : ℚ} {f : UnpackedFloat}

lemma unitExponent_of_canonical {hm : 0 < m} (h : IsCanonical (.finite sign m e hm)) :
    unitExponent (m * 2 ^ e) = e := by
  obtain ⟨hlt, hle, -, hbits⟩ := h
  have hlog : m.log2 < 53 := (Nat.log2_lt hm.ne').mpr hlt
  rw [unitExponent, log_mul_zpow hm]
  rcases hbits with hbits | rfl
  · have hlog' : 52 ≤ m.log2 := (Nat.le_log2 hm.ne').mpr hbits
    omega
  · omega

lemma doubleAt_of_canonical {hm : 0 < m} (h : IsCanonical (.finite .positive m e hm)) :
    doubleAt (m * 2 ^ e) = .ofModel (.pack (.finite .positive m e hm)) := by
  rw [doubleAt, rounded_of_eq_mul hm rfl (unitExponent_of_canonical h)]

/-- A number that is a double: it is not rounded. -/
def IsDouble (x : ℚ) : Prop :=
  ∃ m e hm, IsCanonical (.finite .positive m e hm) ∧ x = m * 2 ^ e

/-- At most 53 bits at a place that is neither too large nor too small make a double. -/
lemma isDouble_mul_zpow (hm : 0 < m) (hlt : m < 2 ^ 53) (hle : -1074 ≤ e) (hge : e ≤ 971) :
    IsDouble (m * 2 ^ e) := by
  have hlog : m.log2 < 53 := (Nat.log2_lt hm.ne').mpr hlt
  obtain ⟨k, hk⟩ : ∃ k : ℕ, e - max (m.log2 + e - 52) (-1074) = k :=
    Int.eq_ofNat_of_zero_le (by omega)
  have hshifted : 2 ^ (m.log2 + k) ≤ m * 2 ^ k ∧ m * 2 ^ k < 2 ^ (m.log2 + 1 + k) := by
    rw [pow_add, pow_add]
    exact ⟨Nat.mul_le_mul_right _ ((Nat.le_log2 hm.ne').mp le_rfl),
      Nat.mul_lt_mul_of_pos_right Nat.lt_log2_self (by positivity)⟩
  refine ⟨m * 2 ^ k, e - k, by positivity, ⟨?_, by omega, by omega, ?_⟩, ?_⟩
  · exact hshifted.2.trans_le (Nat.pow_le_pow_right two_pos (by omega))
  · by_cases hsmall : e - k = -1074
    · exact .inr hsmall
    · refine .inl (le_trans ?_ hshifted.1)
      exact Nat.pow_le_pow_right two_pos (by omega)
  · push_cast
    rw [mul_assoc, ← zpow_natCast, ← zpow_add₀ two_ne_zero, add_sub_cancel]

lemma unpack_doubleAt {hm : 0 < m} (h : IsCanonical (.finite .positive m e hm)) :
    (doubleAt (m * 2 ^ e)).toModel.unpack = .finite .positive m e hm := by
  rw [doubleAt_of_canonical h]
  exact unpack_pack h

theorem mul_doubleAt (hx : IsDouble x) (hy : IsDouble y) :
    doubleAt x * doubleAt y = doubleAt (x * y) := by
  obtain ⟨m, d, hm, hmd, rfl⟩ := hx
  obtain ⟨n, e, hn, hne, rfl⟩ := hy
  have hle : d + e ≤ unitExponent ((m * 2 ^ d) * (n * 2 ^ e)) := by
    have hproduct : ((m : ℚ) * 2 ^ d) * (n * 2 ^ e) = (m * n : ℕ) * 2 ^ (d + e) := by
      rw [zpow_add₀ two_ne_zero]
      push_cast
      ring
    have hpos : 0 < m * n := Nat.mul_pos hm hn
    rw [hproduct, unitExponent, log_mul_zpow hpos]
    obtain ⟨-, -, -, hm' | rfl⟩ := hmd
    · have hlog : 52 ≤ (m * n).log2 :=
        (Nat.le_log2 hpos.ne').mpr (hm'.trans (Nat.le_mul_of_pos_right m hn))
      omega
    · obtain ⟨-, -, -, hn' | rfl⟩ := hne
      · have hlog : 52 ≤ (m * n).log2 :=
          (Nat.le_log2 hpos.ne').mpr (hn'.trans (Nat.le_mul_of_pos_left n hm))
        omega
      · omega
  change Float.ofModel (.pack (UnpackedFloat.mul .binary64 (doubleAt _).toModel.unpack
    (doubleAt _).toModel.unpack)) = _
  rw [unpack_doubleAt hmd, unpack_doubleAt hne, mul_finite hm hn hle]
  rfl

theorem div_doubleAt (hx : IsDouble x) (hy : IsDouble y) :
    doubleAt x / doubleAt y = doubleAt (x / y) := by
  obtain ⟨m, d, hm, hmd, rfl⟩ := hx
  obtain ⟨n, e, hn, hne, rfl⟩ := hy
  change Float.ofModel (.pack (UnpackedFloat.div .binary64 (doubleAt _).toModel.unpack
    (doubleAt _).toModel.unpack)) = _
  rw [unpack_doubleAt hmd, unpack_doubleAt hne, div_finite hm hn]
  rfl

/-- Whole numbers with at most 53 bits, and the next one, are doubles. -/
lemma isDouble_natCast (hm : 0 < m) (hle : m ≤ 2 ^ 53) : IsDouble m := by
  rcases hle.lt_or_eq with hlt | rfl
  · have h := isDouble_mul_zpow (e := 0) hm hlt (by norm_num) (by norm_num)
    rwa [zpow_zero, mul_one] at h
  · have h := isDouble_mul_zpow (m := 1) (e := 53) (by norm_num) (by norm_num) (by norm_num) (by norm_num)
    rw [Nat.cast_one, one_mul] at h
    exact_mod_cast h

lemma isDouble_ten_pow {k : ℕ} (hk : k ≤ 22) : IsDouble (10 ^ k) := by
  have hfive : 5 ^ k < 2 ^ 53 := (Nat.pow_le_pow_right (by norm_num) hk).trans_lt (by norm_num)
  have hten : (10 : ℚ) ^ k = (5 ^ k : ℕ) * 2 ^ (k : ℤ) := by
    rw [zpow_natCast, Nat.cast_pow, Nat.cast_ofNat, ← mul_pow]
    norm_num
  rw [hten]
  exact isDouble_mul_zpow (by positivity) hfive (by omega) (by omega)

lemma unpack_doubleAt_zero : (doubleAt 0).toModel.unpack = .zero .positive := by
  rw [doubleAt, rounded_zero]
  exact unpack_pack trivial

lemma zero_mul_doubleAt (hx : IsDouble x) : doubleAt 0 * doubleAt x = doubleAt 0 := by
  obtain ⟨m, e, hm, hme, rfl⟩ := hx
  change Float.ofModel (.pack (UnpackedFloat.mul .binary64 (doubleAt 0).toModel.unpack
    (doubleAt _).toModel.unpack)) = _
  rw [unpack_doubleAt_zero, unpack_doubleAt hme, doubleAt, rounded_zero]
  rfl

lemma zero_div_doubleAt (hx : IsDouble x) : doubleAt 0 / doubleAt x = doubleAt 0 := by
  obtain ⟨m, e, hm, hme, rfl⟩ := hx
  change Float.ofModel (.pack (UnpackedFloat.div .binary64 (doubleAt 0).toModel.unpack
    (doubleAt _).toModel.unpack)) = _
  rw [unpack_doubleAt_zero, unpack_doubleAt hme, doubleAt, rounded_zero]
  rfl

end Canonical

end Rounding

end Tariff
