import TypedClient.Proofs.Decimal.Nearest

/-!
# Shortest decimals read back

The decimal that is printed for a finite number lies in the rounding interval of the number, so
that the number is the nearest one to it: `isNearest_shortest`. Seventeen digits are enough since
their grid is finer than the interval (`exists_onGrid?`).
-/

namespace TypedClient

/-- What a decimal is worth. -/
def Decimal.value (d : Decimal) : ℚ := d.digits * 10 ^ d.exponent

namespace Double

/-! ## Grids -/

variable {i : Interval} {digits : ℕ} {exponent : ℤ}

theorem cast_tenTo_ne_zero (n : ℕ) : ((tenTo n : ℕ) : ℚ) ≠ 0 :=
  Nat.cast_ne_zero.2 (Nat.pow_pos (by decide)).ne'

theorem ten_zpow_eq_div (e : ℤ) :
    (10 : ℚ) ^ e = (tenTo e.toNat : ℕ) / (tenTo (-e).toNat : ℕ) := by
  exact_mod_cast zpow_eq_div 10 (by decide) e

/-- A point of the grid over the common denominator. -/
theorem cast_point (i : Interval) (digits : ℕ) (exponent : ℤ) :
    ((digits * tenTo exponent.toNat * i.den : ℕ) : ℚ) =
      digits * 10 ^ exponent * i.den * (tenTo (-exponent).toNat : ℕ) := by
  rw [ten_zpow_eq_div, Nat.cast_mul, Nat.cast_mul]
  have hne := cast_tenTo_ne_zero (-exponent).toNat
  field_simp

theorem mem_of_contains (h : i.contains digits exponent = true) :
    i.Mem (digits * 10 ^ exponent) := by
  have hscale : (0 : ℚ) < (tenTo (-exponent).toNat : ℕ) :=
    Nat.cast_pos.2 (Nat.pow_pos (by decide))
  have hbounds : i.lower * tenTo (-exponent).toNat ≤ digits * tenTo exponent.toNat * i.den ∧
      digits * tenTo exponent.toNat * i.den ≤ i.upper * tenTo (-exponent).toNat := by
    unfold Interval.contains at h
    dsimp only at h
    split at h
    · simpa using h
    · simp only [Bool.and_eq_true, decide_eq_true_eq] at h
      exact ⟨h.1.le, h.2.le⟩
  have hlower : ((i.lower * tenTo (-exponent).toNat : ℕ) : ℚ) ≤
      (digits * tenTo exponent.toNat * i.den : ℕ) := Nat.cast_le.2 hbounds.1
  have hupper : ((digits * tenTo exponent.toNat * i.den : ℕ) : ℚ) ≤
      (i.upper * tenTo (-exponent).toNat : ℕ) := Nat.cast_le.2 hbounds.2
  rw [cast_point, Nat.cast_mul] at hlower hupper
  exact ⟨le_of_mul_le_mul_right hlower hscale, le_of_mul_le_mul_right hupper hscale⟩

theorem contains_of_lt (hlower : (i.lower : ℚ) < digits * 10 ^ exponent * i.den)
    (hupper : digits * 10 ^ exponent * i.den < (i.upper : ℚ)) :
    i.contains digits exponent = true := by
  have hscale : (0 : ℚ) < (tenTo (-exponent).toNat : ℕ) :=
    Nat.cast_pos.2 (Nat.pow_pos (by decide))
  have hbelow := mul_lt_mul_of_pos_right hlower hscale
  have habove := mul_lt_mul_of_pos_right hupper hscale
  rw [← cast_point, ← Nat.cast_mul, Nat.cast_lt] at hbelow habove
  unfold Interval.contains
  dsimp only
  split
  · simpa using ⟨hbelow.le, habove.le⟩
  · simpa using ⟨hbelow, habove⟩

/-- What is found on a grid lies in the interval. -/
theorem contains_of_onGrid? (h : i.onGrid? exponent = some digits) :
    i.contains digits exponent = true := by
  unfold Interval.onGrid? at h
  dsimp only at h
  split at h
  · rename_i hboth
    rw [Bool.and_eq_true] at hboth
    obtain rfl := Option.some.inj h
    split
    · exact hboth.1
    · split
      · exact hboth.2
      · split
        · exact hboth.1
        · exact hboth.2
  · split at h
    · obtain rfl := Option.some.inj h
      assumption
    · split at h
      · obtain rfl := Option.some.inj h
        assumption
      · cases h

/-- The neighbours of the value on a grid. -/
theorem onGrid?_isSome {below : ℕ}
    (hbelow : below = i.value * tenTo (-exponent).toNat / (i.den * tenTo exponent.toNat))
    (h : i.contains below exponent = true ∨ i.contains (below + 1) exponent = true) :
    (i.onGrid? exponent).isSome := by
  subst hbelow
  unfold Interval.onGrid?
  dsimp only
  rcases h with h | h
  · rw [h]
    split
    · rfl
    · rw [if_pos rfl]
      rfl
  · rw [h]
    split
    · rfl
    · split <;> rfl

/-- The value lies between its neighbours on a grid. -/
theorem below_le_value (i : Interval) (exponent : ℤ) {below : ℕ} (hden : 0 < i.den)
    (hbelow : below = i.value * tenTo (-exponent).toNat / (i.den * tenTo exponent.toNat)) :
    below * 10 ^ exponent * i.den ≤ (i.value : ℚ) ∧
      (i.value : ℚ) < (below + 1 : ℕ) * 10 ^ exponent * i.den := by
  have hscale : (0 : ℚ) < (tenTo (-exponent).toNat : ℕ) :=
    Nat.cast_pos.2 (Nat.pow_pos (by decide))
  have hpos : 0 < i.den * tenTo exponent.toNat := Nat.mul_pos hden (Nat.pow_pos (by decide))
  have hle : below * tenTo exponent.toNat * i.den ≤ i.value * tenTo (-exponent).toNat := by
    have hdiv := Nat.div_mul_le_self (i.value * tenTo (-exponent).toNat)
      (i.den * tenTo exponent.toNat)
    rw [← hbelow] at hdiv
    linarith
  have hlt : i.value * tenTo (-exponent).toNat < (below + 1) * tenTo exponent.toNat * i.den := by
    have hdiv := Nat.lt_mul_div_succ (i.value * tenTo (-exponent).toNat) hpos
    rw [← hbelow] at hdiv
    linarith
  rw [← Nat.cast_le (α := ℚ), cast_point, Nat.cast_mul] at hle
  rw [← Nat.cast_lt (α := ℚ), cast_point, Nat.cast_mul] at hlt
  exact ⟨le_of_mul_le_mul_right hle hscale, lt_of_mul_lt_mul_right hlt hscale.le⟩

/-! ## The leading digit -/

theorem tenTo_digitCount_le {n : ℕ} (h : 0 < n) : tenTo (digitCount n - 1) ≤ n := by
  by_contra hlt
  rcases Nat.eq_zero_or_pos (digitCount n - 1) with hzero | hpos
  · rw [hzero] at hlt
    exact hlt h
  · have hlength := (Nat.length_toDigits_le_iff (b := 10) (by decide) hpos).2 (not_le.1 hlt)
    have hcount : 0 < digitCount n := Nat.length_toDigits_pos
    have hle : digitCount n ≤ digitCount n - 1 := hlength
    omega

theorem lt_tenTo_digitCount (n : ℕ) : n < tenTo (digitCount n) :=
  (Nat.length_toDigits_le_iff (b := 10) (by decide) Nat.length_toDigits_pos).1 le_rfl

/-- The leading digit is no further to the left than the exponent says. -/
theorem zpow_leadingExponent_le {num den : ℕ} (hnum : 0 < num) (hden : 0 < den) :
    (10 : ℚ) ^ leadingExponent num den * den ≤ num := by
  have hpos : (0 : ℚ) < den := Nat.cast_pos.2 hden
  unfold leadingExponent
  dsimp only
  split
  · rename_i hle
    have hquotient : 0 < num / den := Nat.div_pos hle hden
    have hcount : 0 < digitCount (num / den) := Nat.length_toDigits_pos
    have hmul : tenTo (digitCount (num / den) - 1) * den ≤ num :=
      (Nat.mul_le_mul_right _ (tenTo_digitCount_le hquotient)).trans (Nat.div_mul_le_self _ _)
    have hexponent : Int.ofNat (digitCount (num / den)) - 1 =
        ((digitCount (num / den) - 1 : ℕ) : ℤ) := by
      rw [Int.ofNat_eq_natCast]
      omega
    rw [hexponent, zpow_natCast]
    exact_mod_cast hmul
  · split
    · rename_i hle
      rw [zpow_neg, Int.ofNat_eq_natCast, zpow_natCast, inv_mul_le_iff₀ (by positivity), mul_comm]
      exact_mod_cast hle
    · rw [zpow_neg, Int.ofNat_eq_natCast, zpow_natCast, inv_mul_le_iff₀ (by positivity), mul_comm]
      have hlt := Nat.lt_mul_of_div_lt (lt_tenTo_digitCount (den / num)) hnum
      rw [mul_comm] at hlt
      exact_mod_cast hlt.le

/-! ## The search -/

/-- Half the distance to the neighbours is a large enough part of the number itself. -/
theorem Scaled.value_le_halfGap {s : Scaled} (h : s.IsLegal) : s.value ≤ 2 ^ 54 * s.halfGap := by
  have hunit : (0 : ℚ) < 2 ^ s.exponent := zpow_pos two_pos _
  rw [value, halfGap]
  split
  · rename_i hpower
    rw [hpower.1]
    push_cast
    linarith
  · have hle : (s.significand : ℚ) ≤ 2 ^ 53 := by exact_mod_cast h.significand_lt.le
    have hscaled := mul_le_mul_of_nonneg_right hle hunit.le
    linarith

/-- On the grid of the seventeenth digit there is a point of the interval. -/
theorem onGrid?_seventeen {x : Double} (h : x.scaled.significand ≠ 0) :
    (x.interval.onGrid? (leadingExponent x.interval.value x.interval.den - 16)).isSome := by
  obtain ⟨hlower, hvalue, hupper⟩ := interval_bounds h
  have hden := den_pos x
  have hdenNat : 0 < x.interval.den := Nat.cast_pos.1 hden
  have hunit : (0 : ℚ) < 2 ^ x.scaled.exponent := zpow_pos two_pos _
  have hpos : 0 < x.scaled.value := mul_pos (Nat.cast_pos.2 (Nat.pos_of_ne_zero h)) hunit
  have hnum : 0 < x.interval.value := by
    rw [← Nat.cast_pos (α := ℚ), hvalue]
    exact mul_pos hpos hden
  set top := leadingExponent x.interval.value x.interval.den
  have hleading : (10 : ℚ) ^ top ≤ x.scaled.value := by
    have hle := zpow_leadingExponent_le hnum hdenNat
    rw [hvalue] at hle
    exact le_of_mul_le_mul_right hle hden
  set step : ℚ := 10 ^ (top - 16)
  have hstep : 0 < step := zpow_pos (by norm_num) _
  have hsteps : step * 10 ^ 16 = 10 ^ top := by
    rw [← zpow_natCast, ← zpow_add₀ (by norm_num)]
    norm_num
  have hhalf := x.scaled.halfGap_le
  have hgap : step < 2 * x.scaled.halfGap := by
    have hlegal := Scaled.value_le_halfGap x.scaled_isLegal
    linarith
  obtain ⟨hbelow, habove⟩ := below_le_value x.interval (top - 16) hdenNat rfl
  set below := x.interval.value * tenTo (-(top - 16)).toNat /
    (x.interval.den * tenTo (top - 16).toNat) with hdef
  rw [hvalue] at hbelow habove
  have hle : below * step ≤ x.scaled.value := le_of_mul_le_mul_right hbelow hden
  have hlt : x.scaled.value < below * step + step := by
    have hcast := lt_of_mul_lt_mul_right habove hden.le
    push_cast at hcast
    linarith
  -- The nearer neighbour is at most half a step away.
  refine onGrid?_isSome hdef ?_
  rcases le_total (2 * (x.scaled.value - below * step)) step with hnear | hnear
  · refine .inl (contains_of_lt ?_ ?_)
    · rw [hlower]
      exact mul_lt_mul_of_pos_right (by linarith) hden
    · rw [hupper]
      exact mul_lt_mul_of_pos_right (by linarith) hden
  · refine .inr (contains_of_lt ?_ ?_)
    · rw [hlower]
      refine mul_lt_mul_of_pos_right ?_ hden
      push_cast
      linarith
    · rw [hupper]
      refine mul_lt_mul_of_pos_right ?_ hden
      push_cast
      linarith

/-! ## The result -/

theorem value_stripZeros (n : ℕ) (d : Decimal) : (stripZeros n d).value = d.value := by
  induction n generalizing d with
  | zero => rfl
  | succ n ih =>
      rw [stripZeros]
      split
      · rename_i hzero
        have hdigits : d.digits = 10 * (d.digits / 10) := by omega
        rw [ih, Decimal.value, Decimal.value, zpow_add_one₀ (by norm_num)]
        conv_rhs => rw [hdigits]
        push_cast
        ring
      · rfl

theorem significand_ne_zero {x : Double} (h : x.isZero = false) : x.scaled.significand ≠ 0 := by
  have hbits : x.magnitudeBits ≠ 0 := by simpa [isZero] using h
  have hsplit := Nat.div_add_mod x.magnitudeBits (twoTo 52)
  have hpower : 0 < twoTo 52 := Nat.two_pow_pos 52
  unfold scaled
  dsimp only
  split
  · rename_i hfield
    rw [hfield] at hsplit
    dsimp only
    omega
  · dsimp only
    omega

theorem value_eq_zero {x : Double} (h : x.isZero = true) : x.value = 0 := by
  have hbits : x.magnitudeBits = 0 := by simpa [isZero] using h
  simp [value, scaled, hbits, Scaled.value]

/-- The shortest decimal of a number lies in its rounding interval. -/
theorem mem_interval_shortest {x : Double} (h : x.isZero = false) :
    x.interval.Mem x.shortest.value := by
  have hfound := onGrid?_seventeen (significand_ne_zero h)
  unfold shortest
  rw [if_neg (by simp [h])]
  dsimp only
  split
  · rename_i hd
    obtain ⟨exponent, -, hgrid⟩ := List.exists_of_findSome?_eq_some hd
    obtain ⟨digits, hdigits, rfl⟩ := Option.map_eq_some_iff.1 hgrid
    rw [value_stripZeros]
    exact mem_of_contains (contains_of_onGrid? hdigits)
  · rename_i hnone
    obtain ⟨digits, hdigits⟩ := Option.isSome_iff_exists.1 hfound
    have hall := List.findSome?_eq_none_iff.1 hnone _
      (List.mem_map.2 ⟨16, List.mem_range.2 (by decide), rfl⟩)
    simp [hdigits] at hall

/-- A finite number is nearest to the decimal that is printed for it. -/
theorem isNearest_shortest {x : Double} (h : x.isFinite = true) :
    x.IsNearest (x.sign * x.shortest.value) := by
  by_cases hzero : x.isZero = true
  · have hshortest : x.shortest.value = 0 := by simp [shortest, hzero, Decimal.value]
    refine ⟨h, fun y _ => ?_⟩
    rw [hshortest, value_eq_zero hzero]
    simp
  · rw [Bool.not_eq_true] at hzero
    exact isNearest_of_mem h (significand_ne_zero hzero) (mem_interval_shortest hzero)

end Double

end TypedClient
