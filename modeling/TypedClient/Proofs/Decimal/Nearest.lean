import Mathlib.Algebra.Order.Field.Power
import Mathlib.Data.Rat.Cast.Order
import Mathlib.Tactic.FieldSimp
import Mathlib.Tactic.Linarith
import Mathlib.Tactic.LinearCombination
import Mathlib.Tactic.Ring
import TypedClient.Decimal.Shortest

/-!
# Nearest numbers

`Double.value` is what a finite binary64 number is worth. Between a number and its neighbours there
is no other one (`Scaled.gap`), so that it is nearest to all that lies in its rounding interval:
`isNearest_of_mem`.
-/

namespace TypedClient.Double

/-! ## Magnitudes -/

/-- What a significand and an exponent are worth. -/
def Scaled.value (s : Scaled) : ℚ := s.significand * 2 ^ s.exponent

/-- The significand has 53 bits at most, and fewer only for the least exponent. -/
structure Scaled.IsLegal (s : Scaled) : Prop where
  significand_lt : s.significand < 2 ^ 53
  least_le : -1074 ≤ s.exponent
  le_significand : -1074 < s.exponent → 2 ^ 52 ≤ s.significand

theorem scaled_isLegal (x : Double) : x.scaled.IsLegal := by
  have hfraction : x.magnitudeBits % twoTo 52 < 2 ^ 52 := Nat.mod_lt _ (Nat.two_pow_pos 52)
  have htwo : twoTo 52 = 2 ^ 52 := rfl
  unfold scaled
  dsimp only
  split
  · exact ⟨by dsimp only; omega, le_rfl, fun h => absurd h (lt_irrefl _)⟩
  · rename_i hfield
    generalize x.magnitudeBits / twoTo 52 = field at hfield ⊢
    refine ⟨by dsimp only; omega, ?_, fun _ => by dsimp only; omega⟩
    change (-1074 : ℤ) ≤ (field : ℤ) - 1075
    omega

variable {s t : Scaled}

theorem Scaled.value_eq (s : Scaled) : s.value = s.significand * 2 ^ s.exponent := rfl

theorem Scaled.value_nonneg (s : Scaled) : 0 ≤ s.value :=
  mul_nonneg (Nat.cast_nonneg _) (zpow_nonneg zero_le_two _)

/-- Half the distance to the next lower magnitude, which is smaller at a power of two. -/
def Scaled.halfGap (s : Scaled) : ℚ :=
  if s.significand = 2 ^ 52 ∧ -1074 < s.exponent then 2 ^ s.exponent / 4 else 2 ^ s.exponent / 2

theorem Scaled.halfGap_nonneg (s : Scaled) : 0 ≤ s.halfGap := by
  have hunit : (0 : ℚ) < 2 ^ s.exponent := zpow_pos two_pos _
  unfold halfGap
  split <;> linarith

theorem Scaled.halfGap_le (s : Scaled) : s.halfGap ≤ 2 ^ s.exponent / 2 := by
  have hunit : (0 : ℚ) < 2 ^ s.exponent := zpow_pos two_pos _
  unfold halfGap
  split <;> linarith

/-- A step of the exponent doubles the unit at least. -/
theorem two_mul_zpow_le {e e' : ℤ} (h : e < e') : 2 * (2 : ℚ) ^ e ≤ 2 ^ e' := by
  rw [mul_comm, ← zpow_add_one₀ two_ne_zero]
  exact zpow_le_zpow_right₀ one_le_two h

/-- No magnitude lies strictly between one and its neighbours. -/
theorem Scaled.gap (hs : s.IsLegal) (ht : t.IsLegal) (hne : t ≠ s) :
    t.value ≤ s.value - 2 * s.halfGap ∨ s.value + 2 ^ s.exponent ≤ t.value := by
  have hunit : (0 : ℚ) < 2 ^ s.exponent := zpow_pos two_pos _
  have hhalf := s.halfGap_le
  rcases lt_trichotomy t.exponent s.exponent with hlt | heq | hlt
  · left
    have hdouble := two_mul_zpow_le hlt
    have hsig : (t.significand : ℚ) ≤ 2 ^ 53 - 1 := by
      have hle : t.significand + 1 ≤ 2 ^ 53 := ht.significand_lt
      have hcast : (t.significand : ℚ) + 1 ≤ 2 ^ 53 := by exact_mod_cast hle
      linarith
    have htop : 2 * t.value ≤ (2 ^ 53 - 1) * 2 ^ s.exponent := by
      have hunits : (0 : ℚ) ≤ 2 * 2 ^ t.exponent := by positivity
      calc 2 * t.value = t.significand * (2 * 2 ^ t.exponent) := by rw [t.value_eq]; ring
        _ ≤ (2 ^ 53 - 1) * (2 * 2 ^ t.exponent) := mul_le_mul_of_nonneg_right hsig hunits
        _ ≤ (2 ^ 53 - 1) * 2 ^ s.exponent := mul_le_mul_of_nonneg_left hdouble (by norm_num)
    have hlegal := hs.le_significand (lt_of_le_of_lt ht.least_le hlt)
    rw [halfGap, s.value_eq]
    split
    · rename_i hpower
      rw [hpower.1]
      push_cast
      linarith
    · rename_i hpower
      have hne : s.significand ≠ 2 ^ 52 := fun h => hpower ⟨h, lt_of_le_of_lt ht.least_le hlt⟩
      have hle : (2 ^ 52 + 1 : ℚ) ≤ s.significand := by
        exact_mod_cast lt_of_le_of_ne hlegal hne.symm
      have hbottom := mul_le_mul_of_nonneg_right hle hunit.le
      linarith
  · have hsig : t.significand ≠ s.significand := by
      rintro hsig
      cases s
      cases t
      simp_all
    rcases lt_or_gt_of_ne hsig with hlt | hlt
    · left
      have hle : (t.significand : ℚ) + 1 ≤ s.significand := by exact_mod_cast hlt
      have hscaled := mul_le_mul_of_nonneg_right hle hunit.le
      rw [t.value_eq, s.value_eq, heq]
      linarith
    · right
      have hle : (s.significand : ℚ) + 1 ≤ t.significand := by exact_mod_cast hlt
      have hscaled := mul_le_mul_of_nonneg_right hle hunit.le
      rw [t.value_eq, s.value_eq, heq]
      linarith
  · right
    have hdouble := two_mul_zpow_le hlt
    have hsig : (2 ^ 52 : ℚ) ≤ t.significand := by
      exact_mod_cast ht.le_significand (lt_of_le_of_lt hs.least_le hlt)
    have hle : (s.significand : ℚ) + 1 ≤ 2 ^ 53 := by exact_mod_cast hs.significand_lt
    have hscaled := mul_le_mul_of_nonneg_right hle hunit.le
    have hbottom : 2 ^ 53 * 2 ^ s.exponent ≤ t.value := by
      calc (2 ^ 53 * 2 ^ s.exponent : ℚ) = 2 ^ 52 * (2 * 2 ^ s.exponent) := by ring
        _ ≤ 2 ^ 52 * 2 ^ t.exponent := mul_le_mul_of_nonneg_left hdouble (by norm_num)
        _ ≤ t.value := mul_le_mul_of_nonneg_right hsig (zpow_nonneg zero_le_two _)
    rw [s.value_eq]
    linarith

/-- A magnitude is the nearest one to what lies at most half way to its neighbours. -/
theorem Scaled.nearest {q : ℚ} (hs : s.IsLegal) (ht : t.IsLegal) (hlower : s.value - s.halfGap ≤ q)
    (hupper : q ≤ s.value + 2 ^ s.exponent / 2) : |s.value - q| ≤ |t.value - q| := by
  by_cases hne : t = s
  · rw [hne]
  · have hhalf := s.halfGap_le
    have hnonneg := s.halfGap_nonneg
    rcases gap hs ht hne with hgap | hgap
    · have habs := neg_abs_le (t.value - q)
      exact abs_le.2 ⟨by linarith, by linarith⟩
    · have habs := le_abs_self (t.value - q)
      exact abs_le.2 ⟨by linarith, by linarith⟩

/-! ## Numbers -/

/-- The sign of a number. -/
def sign (x : Double) : ℚ := if x.isNegative then -1 else 1

/-- What a finite number is worth. -/
def value (x : Double) : ℚ := x.sign * x.scaled.value

/-- A number is finite, and no finite number is nearer. -/
structure IsNearest (x : Double) (q : ℚ) : Prop where
  isFinite : x.isFinite = true
  le (y : Double) : y.isFinite = true → |x.value - q| ≤ |y.value - q|

/-- A power with an integer exponent is a quotient of two natural ones. -/
theorem zpow_eq_div (a : ℕ) (ha : a ≠ 0) (e : ℤ) :
    (a : ℚ) ^ e = (a ^ e.toNat : ℕ) / (a ^ (-e).toNat : ℕ) := by
  have hne : (a : ℚ) ≠ 0 := Nat.cast_ne_zero.2 ha
  rcases le_total 0 e with h | h
  · obtain ⟨n, rfl⟩ := Int.eq_ofNat_of_zero_le h
    simp
  · obtain ⟨n, hn⟩ := Int.eq_ofNat_of_zero_le (Int.neg_nonneg.2 h)
    obtain rfl : e = -n := by omega
    simp

theorem den_pos (x : Double) : (0 : ℚ) < x.interval.den := by
  unfold interval
  dsimp only
  split
  · norm_num
  · exact Nat.cast_pos.2 (Nat.mul_pos (by decide) (Nat.two_pow_pos _))

/-- The bounds of the rounding interval are half way to the neighbours. -/
theorem interval_bounds {x : Double} (h : x.scaled.significand ≠ 0) :
    (x.interval.lower : ℚ) = (x.scaled.value - x.scaled.halfGap) * x.interval.den ∧
      (x.interval.value : ℚ) = x.scaled.value * x.interval.den ∧
      (x.interval.upper : ℚ) = (x.scaled.value + 2 ^ x.scaled.exponent / 2) * x.interval.den := by
  have hpow := zpow_eq_div 2 two_ne_zero x.scaled.exponent
  have hlow : ((if x.scaled.significand = twoTo 52 ∧ -1074 < x.scaled.exponent then
        4 * x.scaled.significand - 1 else 4 * x.scaled.significand - 2 : ℕ) : ℚ) *
          2 ^ x.scaled.exponent = (x.scaled.value - x.scaled.halfGap) * 4 := by
    rw [Scaled.value, Scaled.halfGap]
    split
    · rw [if_pos ‹_›, Nat.cast_sub (by omega)]
      push_cast
      ring
    · rw [if_neg ‹_›, Nat.cast_sub (by omega)]
      push_cast
      ring
  unfold interval
  dsimp only
  generalize hlowest : (if x.scaled.significand = twoTo 52 ∧ -1074 < x.scaled.exponent then
    4 * x.scaled.significand - 1 else 4 * x.scaled.significand - 2 : ℕ) = low at hlow ⊢
  rw [Scaled.value] at hlow ⊢
  split
  · rename_i hexponent
    have hunit : ((twoTo x.scaled.exponent.toNat : ℕ) : ℚ) = 2 ^ x.scaled.exponent := by
      rw [Int.toNat_of_nonpos (by omega : -x.scaled.exponent ≤ 0)] at hpow
      simpa [twoTo] using hpow.symm
    simp only [Nat.cast_mul, Nat.cast_add, Nat.cast_ofNat, hunit]
    exact ⟨hlow, by ring, by ring⟩
  · rename_i hexponent
    have hunit : (2 : ℚ) ^ x.scaled.exponent * (twoTo (-x.scaled.exponent).toNat : ℕ) = 1 := by
      rw [Int.toNat_of_nonpos (by omega : x.scaled.exponent ≤ 0)] at hpow
      have hpos : ((2 ^ (-x.scaled.exponent).toNat : ℕ) : ℚ) ≠ 0 :=
        Nat.cast_ne_zero.2 (Nat.two_pow_pos _).ne'
      rw [show ((2 : ℚ) = (2 : ℕ)) by norm_num, hpow]
      exact div_mul_cancel₀ _ hpos
    simp only [Nat.cast_mul, Nat.cast_add, Nat.cast_ofNat]
    refine ⟨?_, ?_, ?_⟩
    · linear_combination (-(low : ℚ)) * hunit + (twoTo (-x.scaled.exponent).toNat : ℕ) * hlow
    · linear_combination (-4 * (x.scaled.significand : ℚ)) * hunit
    · linear_combination (-4 * (x.scaled.significand : ℚ) - 2) * hunit

/-! ## The rounding interval -/

/-- A rational lies within the bounds of an interval. -/
structure Interval.Mem (i : Interval) (q : ℚ) : Prop where
  lower_le : (i.lower : ℚ) ≤ q * i.den
  le_upper : q * i.den ≤ i.upper

/-- The sign changes no distance. -/
theorem abs_sign_mul (x : Double) (q : ℚ) : |x.sign * q| = |q| := by
  unfold sign
  split <;> simp

/-- Magnitudes are at most as far apart as the numbers. -/
theorem abs_sub_le_abs_sign_sub (x y : Double) {p q : ℚ} (hp : 0 ≤ p) (hq : 0 ≤ q) :
    |p - q| ≤ |y.sign * p - x.sign * q| := by
  have habs := abs_abs_sub_abs_le_abs_sub (y.sign * p) (x.sign * q)
  rwa [abs_sign_mul, abs_sign_mul, abs_of_nonneg hp, abs_of_nonneg hq] at habs

/-- A number is nearest to everything in its rounding interval. -/
theorem isNearest_of_mem {x : Double} {q : ℚ} (hfinite : x.isFinite = true)
    (hzero : x.scaled.significand ≠ 0) (h : x.interval.Mem q) : x.IsNearest (x.sign * q) := by
  obtain ⟨hlower, -, hupper⟩ := interval_bounds hzero
  have hden := den_pos x
  have hle : x.scaled.value - x.scaled.halfGap ≤ q :=
    le_of_mul_le_mul_right (hlower ▸ h.lower_le) hden
  have hge : q ≤ x.scaled.value + 2 ^ x.scaled.exponent / 2 :=
    le_of_mul_le_mul_right (hupper ▸ h.le_upper) hden
  have hnonneg : 0 ≤ q := by
    have hnat : (0 : ℚ) ≤ q * x.interval.den := le_trans (Nat.cast_nonneg _) h.lower_le
    exact nonneg_of_mul_nonneg_left hnat hden
  refine ⟨hfinite, fun y _ => ?_⟩
  calc |x.value - x.sign * q| = |x.scaled.value - q| := by
        rw [value, ← mul_sub, abs_sign_mul]
    _ ≤ |y.scaled.value - q| :=
        Scaled.nearest x.scaled_isLegal y.scaled_isLegal hle hge
    _ ≤ |y.value - x.sign * q| := abs_sub_le_abs_sign_sub x y y.scaled.value_nonneg hnonneg

end TypedClient.Double
