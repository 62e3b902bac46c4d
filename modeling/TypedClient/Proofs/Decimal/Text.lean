import Mathlib.Data.List.TakeWhile
import TypedClient.Decimal.Text
import TypedClient.Proofs.Decimal.Shortest

/-!
# Numerals

How a numeral is read: digits before and behind the point, and the power of ten behind the letter
`e` (`numeralValue`). What is written for a number is a numeral (`isNumeral_text`), which stands
for the number: a whole number exactly (`numeralValue_intText`), and a finite binary64 number as
the nearest one (`isNearest_numeralValue_text`).
-/

namespace TypedClient

/-! ## Reading -/

namespace Decimal

/-- The power of ten behind the letter `e`. -/
def exponentValue : List Char → ℤ
  | '-' :: cs => -Nat.ofDigitChars 10 cs 0
  | '+' :: cs => Nat.ofDigitChars 10 cs 0
  | cs => Nat.ofDigitChars 10 cs 0

/-- What digits with a point are worth. -/
def mantissaValue (cs : List Char) : ℚ :=
  let whole := cs.takeWhile (· != '.')
  let fraction := (cs.dropWhile (· != '.')).drop 1
  Nat.ofDigitChars 10 (whole ++ fraction) 0 / 10 ^ fraction.length

/-- What a numeral without a sign is worth. -/
def unsignedValue (cs : List Char) : ℚ :=
  mantissaValue (cs.takeWhile (· != 'e')) *
    10 ^ exponentValue ((cs.dropWhile (· != 'e')).drop 1)

/-- What a numeral is worth. -/
def numeralValue : List Char → ℚ
  | '-' :: cs => -unsignedValue cs
  | cs => unsignedValue cs

/-- The text consists of decimal digits. -/
def IsDigits (cs : List Char) : Prop := ∀ c ∈ cs, c.isDigit = true

variable {cs whole fraction mantissa exponent : List Char}

theorem isDigits_toDigits (n : ℕ) : IsDigits (Nat.toDigits 10 n) := fun _ hc =>
  Nat.isDigit_of_mem_toDigits (by decide) (by decide) hc

theorem isDigits_replicate (n : ℕ) : IsDigits (List.replicate n '0') := by
  intro c hc
  rw [List.eq_of_mem_replicate hc]
  decide

theorem IsDigits.append (h : IsDigits whole) (h' : IsDigits fraction) :
    IsDigits (whole ++ fraction) := List.forall_mem_append.2 ⟨h, h'⟩

theorem IsDigits.not_mem {c : Char} (h : IsDigits cs) (hc : c.isDigit = false) : c ∉ cs := by
  intro hmem
  rw [h c hmem] at hc
  cases hc

theorem takeWhile_bne {c : Char} (h : c ∉ cs) (rest : List Char) :
    (cs ++ c :: rest).takeWhile (· != c) = cs := by
  rw [List.takeWhile_append_of_pos fun d hd => bne_iff_ne.2 (ne_of_mem_of_not_mem hd h)]
  simp

theorem dropWhile_bne {c : Char} (h : c ∉ cs) (rest : List Char) :
    (cs ++ c :: rest).dropWhile (· != c) = c :: rest := by
  rw [List.dropWhile_append_of_pos fun d hd => bne_iff_ne.2 (ne_of_mem_of_not_mem hd h)]
  simp

theorem takeWhile_bne_eq_self {c : Char} (h : c ∉ cs) : cs.takeWhile (· != c) = cs :=
  List.takeWhile_eq_self_iff.2 fun _ hd => bne_iff_ne.2 (ne_of_mem_of_not_mem hd h)

theorem dropWhile_bne_eq_nil {c : Char} (h : c ∉ cs) : cs.dropWhile (· != c) = [] :=
  List.dropWhile_eq_nil_iff.2 fun _ hd => bne_iff_ne.2 (ne_of_mem_of_not_mem hd h)

theorem mantissaValue_digits (h : IsDigits whole) :
    mantissaValue whole = Nat.ofDigitChars 10 whole 0 := by
  have hpoint : '.' ∉ whole := h.not_mem (by decide)
  simp [mantissaValue, takeWhile_bne_eq_self hpoint, dropWhile_bne_eq_nil hpoint]

theorem mantissaValue_point (h : IsDigits whole) :
    mantissaValue (whole ++ '.' :: fraction) =
      Nat.ofDigitChars 10 (whole ++ fraction) 0 / 10 ^ fraction.length := by
  have hpoint : '.' ∉ whole := h.not_mem (by decide)
  simp [mantissaValue, takeWhile_bne hpoint, dropWhile_bne hpoint]

theorem unsignedValue_mantissa (h : 'e' ∉ mantissa) :
    unsignedValue mantissa = mantissaValue mantissa := by
  simp [unsignedValue, takeWhile_bne_eq_self h, dropWhile_bne_eq_nil h, exponentValue]

theorem unsignedValue_exponent (h : 'e' ∉ mantissa) :
    unsignedValue (mantissa ++ 'e' :: exponent) =
      mantissaValue mantissa * 10 ^ exponentValue exponent := by
  simp [unsignedValue, takeWhile_bne h, dropWhile_bne h]

/-! ## Decimals -/

theorem unsignedValue_fixedText (layout : Layout) (d : Decimal) :
    unsignedValue (fixedText layout d) = d.value := by
  have hdigits := isDigits_toDigits d.digits
  unfold fixedText
  dsimp only
  split
  · rename_i hexponent
    obtain ⟨n, hn⟩ := Int.eq_ofNat_of_zero_le hexponent
    have hall := hdigits.append (isDigits_replicate n)
    have hvalue : (Nat.ofDigitChars 10 (Nat.toDigits 10 d.digits ++ List.replicate n '0') 0 : ℚ) =
        d.value := by
      rw [Nat.ofDigitChars_append, Nat.ofDigitChars_ten_toDigits, Nat.ofDigitChars_replicate_zero,
        value, hn, zpow_natCast]
      push_cast
      ring
    rw [hn, Int.toNat_natCast]
    split
    · rw [unsignedValue_mantissa, mantissaValue_point hall, Nat.ofDigitChars_append, ← hvalue]
      · simp [Nat.ofDigitChars_cons]
      · simpa using fun h => hall.not_mem (by decide : 'e'.isDigit = false) (by simpa using h)
    · rw [List.append_nil, unsignedValue_mantissa (hall.not_mem (by decide)),
        mantissaValue_digits hall, hvalue]
  · rename_i hexponent
    obtain ⟨n, hn⟩ := Int.eq_ofNat_of_zero_le (Int.neg_nonneg.2 (not_le.1 hexponent).le)
    have hall := (isDigits_replicate (n + 1 - (Nat.toDigits 10 d.digits).length)).append hdigits
    have hvalue : Nat.ofDigitChars 10
        (List.replicate (n + 1 - (Nat.toDigits 10 d.digits).length) '0' ++
          Nat.toDigits 10 d.digits) 0 = d.digits := by
      rw [Nat.ofDigitChars_append, Nat.ofDigitChars_replicate_zero, Nat.mul_zero,
        Nat.ofDigitChars_ten_toDigits]
    have hlength : n ≤ (List.replicate (n + 1 - (Nat.toDigits 10 d.digits).length) '0' ++
          Nat.toDigits 10 d.digits).length := by
      rw [List.length_append, List.length_replicate]
      omega
    rw [hn, Int.toNat_natCast]
    generalize List.replicate (n + 1 - (Nat.toDigits 10 d.digits).length) '0' ++
      Nat.toDigits 10 d.digits = padded at hall hvalue hlength ⊢
    have hwhole : IsDigits (padded.take (padded.length - n)) :=
      fun c hc => hall c (List.mem_of_mem_take hc)
    have hfraction : IsDigits (padded.drop (padded.length - n)) :=
      fun c hc => hall c (List.mem_of_mem_drop hc)
    rw [unsignedValue_mantissa, mantissaValue_point hwhole, List.take_append_drop, hvalue, value,
      List.length_drop, Nat.sub_sub_self hlength, show d.exponent = -(n : ℤ) by omega, zpow_neg,
      zpow_natCast, div_eq_mul_inv]
    simp only [List.mem_append, List.mem_cons, not_or]
    exact ⟨hwhole.not_mem (by decide), by decide, hfraction.not_mem (by decide)⟩

/-- The power of ten is written with its sign. -/
theorem exponentValue_sign (top : ℤ) :
    exponentValue ((if top < 0 then '-' else '+') :: Nat.toDigits 10 top.natAbs) = top := by
  split <;> simp only [exponentValue, Nat.ofDigitChars_ten_toDigits] <;> omega

theorem unsignedValue_scientificText (d : Decimal) :
    unsignedValue
        (scientificText d (d.exponent + Int.ofNat (Double.digitCount d.digits) - 1)) = d.value := by
  have hdigits := isDigits_toDigits d.digits
  have hvalue : Nat.ofDigitChars 10 (Nat.toDigits 10 d.digits) 0 = d.digits :=
    Nat.ofDigitChars_ten_toDigits
  unfold scientificText Double.digitCount
  dsimp only
  split
  · rename_i hnil
    exact absurd hnil Nat.toDigits_ne_nil
  · rename_i c hc
    rw [hc] at hdigits hvalue
    rw [unsignedValue_exponent (hdigits.not_mem (by decide)), exponentValue_sign,
      mantissaValue_digits hdigits, hvalue, value, hc]
    simp
  · rename_i c cs _ hcs
    rw [hcs] at hdigits hvalue
    have hfirst : IsDigits [c] := fun d hd => hdigits d (by simp_all)
    have hrest : IsDigits cs := fun d hd => hdigits d (List.mem_cons_of_mem _ hd)
    have hmantissa : mantissaValue (c :: '.' :: cs) = d.digits / 10 ^ cs.length := by
      rw [← hvalue]
      exact mantissaValue_point hfirst
    have htop : d.exponent + Int.ofNat (c :: cs).length - 1 = d.exponent + cs.length := by
      rw [List.length_cons, Int.ofNat_eq_natCast]
      omega
    rw [hcs, unsignedValue_exponent, exponentValue_sign, hmantissa, htop, value,
      zpow_add₀ (by norm_num), zpow_natCast]
    · field_simp
    · simp only [List.mem_cons, not_or]
      exact ⟨fun h => hfirst.not_mem (by decide) (List.mem_singleton.2 h), by decide,
        hrest.not_mem (by decide)⟩

theorem unsignedValue_text (layout : Layout) (d : Decimal) :
    unsignedValue (d.text layout) = d.value := by
  unfold text
  dsimp only
  split
  · exact unsignedValue_fixedText layout d
  · exact unsignedValue_scientificText d

/-! ## Characters -/

/-- The characters of numerals. -/
def isNumeralChar (c : Char) : Bool := c.isDigit || c ∈ ['.', '-', '+', 'e']

/-- A text starts with a digit and has the characters of numerals. -/
def IsUnsigned (cs : List Char) : Prop :=
  ∃ c rest, cs = c :: rest ∧ c.isDigit = true ∧ ∀ d ∈ rest, isNumeralChar d = true

/-- A text starts with a digit, perhaps behind a sign, and has the characters of numerals. -/
def IsNumeral (cs : List Char) : Prop := IsUnsigned cs ∨ ∃ rest, cs = '-' :: rest ∧ IsUnsigned rest

theorem IsDigits.isNumeralChar (h : IsDigits cs) : ∀ c ∈ cs, Decimal.isNumeralChar c = true :=
  fun c hc => by simp [Decimal.isNumeralChar, h c hc]

theorem IsUnsigned.isNumeralChar (h : IsUnsigned cs) :
    ∀ c ∈ cs, Decimal.isNumeralChar c = true := by
  obtain ⟨c, rest, rfl, hc, hrest⟩ := h
  exact List.forall_mem_cons.2 ⟨by simp [Decimal.isNumeralChar, hc], hrest⟩

theorem IsNumeral.isNumeralChar (h : IsNumeral cs) :
    ∀ c ∈ cs, Decimal.isNumeralChar c = true := by
  rcases h with h | ⟨rest, rfl, h⟩
  · exact h.isNumeralChar
  · exact List.forall_mem_cons.2 ⟨by decide, h.isNumeralChar⟩

/-- Digits followed by further characters of numerals. -/
theorem isUnsigned_append {rest : List Char} (h : IsDigits cs) (hne : cs ≠ [])
    (hrest : ∀ c ∈ rest, isNumeralChar c = true) : IsUnsigned (cs ++ rest) := by
  obtain ⟨c, tail, rfl⟩ := List.exists_cons_of_ne_nil hne
  refine ⟨c, tail ++ rest, rfl, h c List.mem_cons_self, ?_⟩
  exact List.forall_mem_append.2
    ⟨fun d hd => h.isNumeralChar d (List.mem_cons_of_mem _ hd), hrest⟩

theorem isUnsigned_toDigits (n : ℕ) : IsUnsigned (Nat.toDigits 10 n) := by
  have hdigits : IsUnsigned (Nat.toDigits 10 n ++ []) :=
    isUnsigned_append (isDigits_toDigits n) Nat.toDigits_ne_nil (by simp)
  rwa [List.append_nil] at hdigits

theorem isUnsigned_fixedText (layout : Layout) (d : Decimal) :
    IsUnsigned (fixedText layout d) := by
  have hdigits := isDigits_toDigits d.digits
  unfold fixedText
  dsimp only
  split
  · rw [List.append_assoc]
    refine isUnsigned_append hdigits Nat.toDigits_ne_nil (List.forall_mem_append.2 ⟨?_, ?_⟩)
    · exact (isDigits_replicate _).isNumeralChar
    · split <;> exact List.all_eq_true.1 (by decide)
  · generalize (-d.exponent).toNat = n
    have hall := (isDigits_replicate (n + 1 - (Nat.toDigits 10 d.digits).length)).append hdigits
    have hlength : n < (List.replicate (n + 1 - (Nat.toDigits 10 d.digits).length) '0' ++
          Nat.toDigits 10 d.digits).length := by
      rw [List.length_append, List.length_replicate]
      omega
    generalize List.replicate (n + 1 - (Nat.toDigits 10 d.digits).length) '0' ++
      Nat.toDigits 10 d.digits = padded at hall hlength ⊢
    refine isUnsigned_append (fun c hc => hall c (List.mem_of_mem_take hc)) ?_ ?_
    · rw [← List.length_pos_iff, List.length_take]
      omega
    · refine List.forall_mem_cons.2 ⟨by decide, ?_⟩
      exact fun c hc => hall.isNumeralChar c (List.mem_of_mem_drop hc)

theorem isUnsigned_scientificText (d : Decimal) (top : ℤ) :
    IsUnsigned (scientificText d top) := by
  have hdigits := isDigits_toDigits d.digits
  have hexponent : ∀ c ∈ 'e' :: (if top < 0 then '-' else '+') :: Nat.toDigits 10 top.natAbs,
      isNumeralChar c = true := by
    refine List.forall_mem_cons.2 ⟨by decide, List.forall_mem_cons.2 ⟨by split <;> decide, ?_⟩⟩
    exact (isDigits_toDigits _).isNumeralChar
  unfold scientificText
  dsimp only
  split
  · rename_i hnil
    exact absurd hnil Nat.toDigits_ne_nil
  · rename_i c hc
    rw [hc] at hdigits
    exact isUnsigned_append hdigits (List.cons_ne_nil _ _) hexponent
  · rename_i c cs _ hcs
    rw [hcs] at hdigits
    refine ⟨c, _, rfl, hdigits c List.mem_cons_self, ?_⟩
    refine List.forall_mem_cons.2 ⟨by decide, List.forall_mem_append.2 ⟨?_, hexponent⟩⟩
    exact fun d hd => hdigits.isNumeralChar d (List.mem_cons_of_mem _ hd)

theorem isUnsigned_text (layout : Layout) (d : Decimal) : IsUnsigned (d.text layout) := by
  unfold text
  dsimp only
  split
  · exact isUnsigned_fixedText layout d
  · exact isUnsigned_scientificText d _

/-- Without a sign, a numeral is worth what its digits are. -/
theorem IsUnsigned.numeralValue_eq (h : IsUnsigned cs) : numeralValue cs = unsignedValue cs := by
  obtain ⟨c, rest, rfl, hc, -⟩ := h
  unfold numeralValue
  split
  · rename_i heq
    obtain ⟨rfl, -⟩ := List.cons.inj heq
    exact absurd hc (by decide)
  · rfl

/-! ## Numbers -/

theorem isNumeral_intText (n : ℤ) : IsNumeral (intText n).toList := by
  unfold intText natText
  split
  · exact .inr ⟨Nat.toDigits 10 n.natAbs, by simp, isUnsigned_toDigits _⟩
  · rw [String.toList_ofList]
    exact .inl (isUnsigned_toDigits _)

/-- A whole number is read back. -/
theorem numeralValue_intText (n : ℤ) : numeralValue (intText n).toList = n := by
  have hvalue : unsignedValue (Nat.toDigits 10 n.natAbs) = n.natAbs := by
    have hdigits := isDigits_toDigits n.natAbs
    rw [unsignedValue_mantissa (hdigits.not_mem (by decide)), mantissaValue_digits hdigits,
      Nat.ofDigitChars_ten_toDigits]
  unfold intText natText
  split
  · rename_i hneg
    have hsign : ("-" ++ String.ofList (Nat.toDigits 10 n.natAbs)).toList =
        '-' :: Nat.toDigits 10 n.natAbs := by simp
    rw [hsign, numeralValue, hvalue, Nat.cast_natAbs, abs_of_neg hneg, Int.cast_neg, neg_neg]
  · rename_i hneg
    rw [String.toList_ofList, (isUnsigned_toDigits _).numeralValue_eq, hvalue, Nat.cast_natAbs,
      abs_of_nonneg (not_lt.1 hneg)]

end Decimal

namespace Double

variable {x : Double}

/-- A finite number is written as its shortest decimal. -/
theorem text_of_isFinite (h : x.isFinite = true) (layout : Decimal.Layout) :
    (x.text layout).toList =
      if x.isNegative then '-' :: x.shortest.text layout else x.shortest.text layout := by
  have hlt : x.magnitudeBits / twoTo 52 < 2047 := by simpa [isFinite] using h
  have hbits : x.magnitudeBits < 2047 * twoTo 52 := (Nat.div_lt_iff_lt_mul (by decide)).1 hlt
  have hnan : x.isNaN = false := decide_eq_false hbits.not_gt
  have hinfinite : x.isInfinite = false := decide_eq_false hbits.ne
  simp [text, hnan, hinfinite]

theorem isNumeral_text (h : x.isFinite = true) (layout : Decimal.Layout) :
    Decimal.IsNumeral (x.text layout).toList := by
  have hunsigned := Decimal.isUnsigned_text layout x.shortest
  rw [text_of_isFinite h]
  split
  · exact .inr ⟨_, rfl, hunsigned⟩
  · exact .inl hunsigned

/-- A finite number is nearest to what its text is worth. -/
theorem isNearest_numeralValue_text (h : x.isFinite = true) (layout : Decimal.Layout) :
    x.IsNearest (Decimal.numeralValue (x.text layout).toList) := by
  have hunsigned := Decimal.isUnsigned_text layout x.shortest
  have hvalue : Decimal.numeralValue (x.text layout).toList = x.sign * x.shortest.value := by
    rw [text_of_isFinite h, sign]
    split
    · rw [Decimal.numeralValue, Decimal.unsignedValue_text, neg_one_mul]
    · rw [hunsigned.numeralValue_eq, Decimal.unsignedValue_text, one_mul]
  rw [hvalue]
  exact isNearest_shortest h

end Double

end TypedClient
