import TypedClient.Proofs.Operation.Sources

/-!
# Keys of responses

`Names` says which keys a status has: `default`, the decimal digits of a code from 100 to 599, and a
digit from 1 to 5 with `XX` or `xx` behind it. What is read is more than that, since a plus sign and
zeros may stand in front of a code (`ofKey?_eq_some_iff`). A key without such padding is the text
of its status, up to the case of `XX`, and the other keys are not (`text_eq_upperX_iff`). In general
the text of a status is what is left of its key (`text_eq_bare`), so that two responses of an
operation have the same status exactly if the same is left of their keys. Main statement:
`keys_read_iff`.
-/

namespace TypedClient

/-! ## Numerals -/

namespace Decimal

variable {cs : List Char} {n : Nat}

theorem exists_digitChar {c : Char} (h : c.isDigit = true) :
    ∃ digit, digit < 10 ∧ c = Nat.digitChar digit := by
  obtain ⟨hlow, hhigh⟩ := Char.isDigit_iff_toNat.1 h
  rw [show '0'.toNat = 48 from rfl] at hlow
  rw [show '9'.toNat = 57 from rfl] at hhigh
  have hlt : c.toNat - 48 < 10 := by omega
  refine ⟨c.toNat - 48, hlt, ?_⟩
  rw [← Char.toNat_inj, Nat.toNat_digitChar_of_lt_ten hlt]
  omega

/-- Digits that follow those of a positive number make the digits of a number. -/
theorem toDigits_append (hcs : ∀ c ∈ cs, c.isDigit = true) (hn : 0 < n) :
    Nat.toDigits 10 n ++ cs = Nat.toDigits 10 (Nat.ofDigitChars 10 cs n) := by
  induction cs generalizing n with
  | nil => simp
  | cons c cs ih =>
      obtain ⟨digit, hlt, rfl⟩ := exists_digitChar (hcs c List.mem_cons_self)
      calc Nat.toDigits 10 n ++ digit.digitChar :: cs
          = Nat.toDigits 10 (10 * n + digit) ++ cs := by
            rw [← Nat.toDigits_append_toDigits (by decide) hn hlt, Nat.toDigits_of_lt_base hlt,
              List.append_assoc, List.singleton_append]
        _ = Nat.toDigits 10 (Nat.ofDigitChars 10 cs (10 * n + digit)) :=
            ih (fun d hd => hcs d (List.mem_cons_of_mem _ hd)) (by omega)
        _ = Nat.toDigits 10 (Nat.ofDigitChars 10 (digit.digitChar :: cs) n) := by
            rw [Nat.ofDigitChars_cons_digitChar_of_lt_ten hlt]

/-- Digits are zeros and then the digits of their value, unless it is zero. -/
theorem exists_zeros_append (hcs : ∀ c ∈ cs, c.isDigit = true)
    (hpos : 0 < Nat.ofDigitChars 10 cs 0) :
    ∃ zeros, cs = List.replicate zeros '0' ++ Nat.toDigits 10 (Nat.ofDigitChars 10 cs 0) := by
  induction cs with
  | nil => simp at hpos
  | cons c cs ih =>
      obtain ⟨digit, hlt, rfl⟩ := exists_digitChar (hcs c List.mem_cons_self)
      have hrest : ∀ c ∈ cs, c.isDigit = true := fun d hd => hcs d (List.mem_cons_of_mem _ hd)
      rw [Nat.ofDigitChars_cons_digitChar_of_lt_ten hlt, Nat.mul_zero, Nat.zero_add] at hpos ⊢
      by_cases hdigit : digit = 0
      · subst hdigit
        obtain ⟨zeros, hzeros⟩ := ih hrest hpos
        exact ⟨zeros + 1, congrArg ('0' :: ·) hzeros⟩
      · refine ⟨0, ?_⟩
        rw [← toDigits_append hrest (Nat.pos_of_ne_zero hdigit), Nat.toDigits_of_lt_base hlt]
        rfl

/-- The digits of a positive number start with none that is zero. -/
theorem head?_toDigits_ne_zero (h : 0 < n) : (Nat.toDigits 10 n).head? ≠ some '0' := by
  induction n using Nat.strongRecOn with
  | ind n ih =>
      by_cases hlt : n < 10
      · simpa [Nat.toDigits_of_lt_base hlt] using Nat.ne_of_gt h
      · have hge : 10 ≤ n := Nat.le_of_not_lt hlt
        rw [Nat.toDigits_of_base_le (by decide) hge,
          List.head?_append_of_ne_nil _ Nat.toDigits_ne_nil]
        exact ih (n / 10) (by omega) (by omega)

theorem isDigit_of_mem_toDigits {c : Char} (h : c ∈ Nat.toDigits 10 n) : c.isDigit = true :=
  Nat.isDigit_of_mem_toDigits (by decide) (by decide) h

end Decimal

namespace Status

open Decimal (natText isDigit_of_mem_toDigits)

variable {key : String} {s : Status} {n leading : Nat} {cs front : List Char}

/-! ## What is read -/

/-- The characters behind a plus sign. -/
def unsigned (cs : List Char) : List Char := if cs.head? == some '+' then cs.tail else cs

/-- A number is read off digits that stand for it, alone or behind a plus sign. -/
theorem number?_eq_some_iff_digits :
    number? cs = some n ↔ unsigned cs ≠ [] ∧ (∀ c ∈ unsigned cs, c.isDigit = true) ∧
      Nat.ofDigitChars 10 (unsigned cs) 0 = n ∧ n < twoTo 16 := by
  have hfold : (unsigned cs).foldl (fun n c => n * 10 + (c.toNat - '0'.toNat)) 0 =
      Nat.ofDigitChars 10 (unsigned cs) 0 := by
    simp only [Nat.ofDigitChars_eq_foldl, Nat.mul_comm]
  have hnumber : number? cs = if (unsigned cs).isEmpty || !(unsigned cs).all Char.isDigit then none
      else if Nat.ofDigitChars 10 (unsigned cs) 0 < twoTo 16 then
        some (Nat.ofDigitChars 10 (unsigned cs) 0) else none := by
    rw [← hfold]
    rfl
  rw [hnumber]
  split
  · rename_i hread
    refine ⟨nofun, fun ⟨hne, hall, _⟩ => ?_⟩
    simp [hne, List.all_eq_true.2 hall] at hread
  · rename_i hread
    simp only [Bool.or_eq_true, not_or, Bool.not_eq_true', List.isEmpty_iff,
      Bool.not_eq_false, List.all_eq_true] at hread
    split
    · rename_i hlt
      exact ⟨fun h => ⟨hread.1, hread.2, Option.some.inj h, Option.some.inj h ▸ hlt⟩,
        fun ⟨_, _, heq, _⟩ => congrArg some heq⟩
    · rename_i hge
      exact ⟨nofun, fun ⟨_, _, heq, hlt⟩ => absurd (heq ▸ hlt) hge⟩

/-- What may stand in front of a code: a plus sign, zeros, both or nothing. -/
def IsPadding (front : List Char) : Prop :=
  ∃ zeros, front = List.replicate zeros '0' ∨ front = '+' :: List.replicate zeros '0'

theorem isPadding_nil : IsPadding [] := ⟨0, .inl rfl⟩

theorem exists_padding_append_unsigned (cs : List Char) :
    cs = unsigned cs ∨ cs = '+' :: unsigned cs := by
  unfold unsigned
  split
  · rename_i hhead
    obtain ⟨rest, rfl⟩ := List.head?_eq_some_iff.1 (by simpa using hhead)
    exact .inr rfl
  · exact .inl rfl

/-- The sign does not belong to the digits. -/
theorem unsigned_eq {digits : List Char} (hdigits : ∀ c ∈ digits, c.isDigit = true)
    (h : cs = digits ∨ cs = '+' :: digits) : unsigned cs = digits := by
  rcases h with rfl | rfl
  · refine if_neg fun hhead => ?_
    have hplus := hdigits '+' (List.mem_of_head? (by simpa using hhead))
    exact absurd hplus (by decide)
  · rfl

/-- Padding in front of digits leaves zeros behind its sign. -/
theorem exists_unsigned_padding_append (hfront : IsPadding front) (n : Nat) :
    ∃ zeros, unsigned (front ++ Nat.toDigits 10 n) = List.replicate zeros '0' ++ Nat.toDigits 10 n ∧
      ∀ c ∈ List.replicate zeros '0' ++ Nat.toDigits 10 n, c.isDigit = true := by
  obtain ⟨zeros, hfront⟩ := hfront
  have hdigits : ∀ c ∈ List.replicate zeros '0' ++ Nat.toDigits 10 n, c.isDigit = true := by
    intro c hc
    rcases List.mem_append.1 hc with hc | hc
    · rw [List.eq_of_mem_replicate hc]
      decide
    · exact isDigit_of_mem_toDigits hc
  refine ⟨zeros, unsigned_eq hdigits ?_, hdigits⟩
  rcases hfront with rfl | rfl
  · exact .inl rfl
  · exact .inr rfl

/-- A positive number is read off its decimal digits, with or without padding. -/
theorem number?_eq_some_iff (hn : 0 < n) :
    number? cs = some n ↔
      n < twoTo 16 ∧ ∃ front, IsPadding front ∧ cs = front ++ Nat.toDigits 10 n := by
  rw [number?_eq_some_iff_digits]
  constructor
  · rintro ⟨_, hdigits, rfl, hlt⟩
    refine ⟨hlt, ?_⟩
    obtain ⟨zeros, hzeros⟩ := Decimal.exists_zeros_append hdigits hn
    rcases exists_padding_append_unsigned cs with hcs | hcs
    · exact ⟨_, ⟨zeros, .inl rfl⟩, hcs.trans hzeros⟩
    · exact ⟨_, ⟨zeros, .inr rfl⟩, hcs.trans (congrArg ('+' :: ·) hzeros)⟩
  · rintro ⟨hlt, front, hfront, rfl⟩
    obtain ⟨zeros, hunsigned, hdigits⟩ := exists_unsigned_padding_append hfront n
    rw [hunsigned]
    refine ⟨by simp [Nat.toDigits_ne_nil], hdigits, ?_, hlt⟩
    rw [Nat.ofDigitChars_append, Nat.ofDigitChars_replicate_zero, Nat.mul_zero,
      Nat.ofDigitChars_ten_toDigits]

theorem number?_eq_none {c : Char} (hc : c ∈ cs) (hplus : c ≠ '+') (hdigit : c.isDigit = false) :
    number? cs = none := by
  rw [Option.eq_none_iff_forall_ne_some]
  intro n hn
  have hmem : c ∈ unsigned cs := by
    rcases exists_padding_append_unsigned cs with hcs | hcs
    · rwa [← hcs]
    · rw [hcs] at hc
      exact (List.mem_cons.1 hc).resolve_left hplus
  have hall := (number?_eq_some_iff_digits.1 hn).2.1 c hmem
  rw [hdigit] at hall
  cases hall

/-- A class is read off its leading digit and two letters. -/
theorem range?_eq_some_iff :
    range? cs = some leading ↔ 1 ≤ leading ∧ leading ≤ 5 ∧
      (cs = [leading.digitChar, 'X', 'X'] ∨ cs = [leading.digitChar, 'x', 'x']) := by
  have hdigit : ∀ c : Char, (if '1' ≤ c ∧ c ≤ '5' then some (c.toNat - '0'.toNat) else none) =
      some leading → 1 ≤ leading ∧ leading ≤ 5 ∧ c = leading.digitChar := by
    intro c hc
    split at hc
    · rename_i hbounds
      have hlow : 49 ≤ c.toNat := hbounds.1
      have hhigh : c.toNat ≤ 53 := hbounds.2
      obtain ⟨digit, hlt, rfl⟩ := Decimal.exists_digitChar
        (Char.isDigit_iff_toNat.2 ⟨Nat.le_trans (by decide) hlow, Nat.le_trans hhigh (by decide)⟩)
      have hleading : digit = leading := by
        rw [← Nat.toNat_digitChar_sub_48_of_lt_ten hlt]
        exact Option.some.inj hc
      rw [Nat.toNat_digitChar_of_lt_ten hlt] at hlow hhigh
      exact ⟨by omega, by omega, by rw [hleading]⟩
    · cases hc
  constructor
  · intro h
    unfold range? at h
    split at h
    · obtain ⟨hlow, hhigh, rfl⟩ := hdigit _ h
      exact ⟨hlow, hhigh, .inl rfl⟩
    · obtain ⟨hlow, hhigh, rfl⟩ := hdigit _ h
      exact ⟨hlow, hhigh, .inr rfl⟩
    · cases h
  · rintro ⟨hlow, hhigh, hcs⟩
    have hread : ∀ l < 6, 1 ≤ l → range? [l.digitChar, 'X', 'X'] = some l ∧
        range? [l.digitChar, 'x', 'x'] = some l := by decide
    rcases hcs with rfl | rfl
    · exact (hread leading (by omega) hlow).1
    · exact (hread leading (by omega) hlow).2

/-! ## Keys -/

/-- The keys that a status has. -/
inductive Names : Status → String → Prop
  | default : Names .default "default"
  | code (n : Nat) : 100 ≤ n → n ≤ 599 → Names (.code n) (natText n)
  | range (leading : Nat) : 1 ≤ leading → leading ≤ 5 →
      Names (.range leading) (natText leading ++ "XX")
  | lowerRange (leading : Nat) : 1 ≤ leading → leading ≤ 5 →
      Names (.range leading) (natText leading ++ "xx")

/-- The key is that of a code with something in front of it. -/
inductive Pads : Status → String → Prop
  | code (n : Nat) (front : List Char) : 100 ≤ n → n ≤ 599 → IsPadding front → front ≠ [] →
      Pads (.code n) (String.ofList front ++ natText n)

theorem toList_natText (h : leading ≤ 5) : (natText leading).toList = [leading.digitChar] := by
  rw [natText, String.toList_ofList, Nat.toDigits_of_lt_base (by omega)]

/-- A code is read off its digits, with or without padding. -/
theorem ofKey?_padding_append {front : List Char} (hfront : IsPadding front) (hlow : 100 ≤ n)
    (hhigh : n ≤ 599) : ofKey? (String.ofList front ++ natText n) = some (.code n) := by
  have hlist : (String.ofList front ++ natText n).toList = front ++ Nat.toDigits 10 n := by
    simp [natText]
  have hnumber : number? (String.ofList front ++ natText n).toList = some n :=
    (number?_eq_some_iff (by omega)).2 ⟨Nat.lt_of_le_of_lt hhigh (by decide), front, hfront, hlist⟩
  have hdefault : String.ofList front ++ natText n ≠ "default" := by
    intro heq
    have hletter : number? "default".toList = none :=
      number?_eq_none (c := 'd') (by decide) (by decide) (by decide)
    rw [heq, hletter] at hnumber
    cases hnumber
  rw [ofKey?, if_neg hdefault, hnumber]
  exact if_pos ⟨hlow, hhigh⟩

/-- A class is read off its digit and two letters. -/
theorem ofKey?_range {letters : String} (hletters : letters = "XX" ∨ letters = "xx")
    (hlow : 1 ≤ leading) (hhigh : leading ≤ 5) :
    ofKey? (natText leading ++ letters) = some (.range leading) := by
  have hread : ∀ l < 6, 1 ≤ l → ofKey? (natText l ++ "XX") = some (.range l) ∧
      ofKey? (natText l ++ "xx") = some (.range l) := by decide
  rcases hletters with rfl | rfl
  · exact (hread leading (by omega) hlow).1
  · exact (hread leading (by omega) hlow).2

theorem ofKey?_of_names (h : Names s key) : ofKey? key = some s := by
  cases h with
  | default => rfl
  | code n hlow hhigh =>
      have hread := ofKey?_padding_append isPadding_nil hlow hhigh
      simpa using hread
  | range leading hlow hhigh => exact ofKey?_range (.inl rfl) hlow hhigh
  | lowerRange leading hlow hhigh => exact ofKey?_range (.inr rfl) hlow hhigh

theorem ofKey?_of_pads (h : Pads s key) : ofKey? key = some s := by
  cases h with
  | code n front hlow hhigh hfront _ => exact ofKey?_padding_append hfront hlow hhigh

/-- A key is read as the status that it is a key of, alone or with padding. -/
theorem ofKey?_eq_some_iff : ofKey? key = some s ↔ Names s key ∨ Pads s key := by
  refine ⟨fun h => ?_, fun h => h.elim ofKey?_of_names ofKey?_of_pads⟩
  unfold ofKey? at h
  split at h
  · rename_i hdefault
    obtain rfl := Option.some.inj h
    exact .inl (hdefault ▸ .default)
  · split at h
    · rename_i n hnumber
      split at h
      · rename_i hbounds
        obtain rfl := Option.some.inj h
        obtain ⟨_, front, hfront, hlist⟩ :=
          (number?_eq_some_iff (Nat.lt_of_lt_of_le (by decide) hbounds.1)).1 hnumber
        have hkey : key = String.ofList front ++ natText n := by
          rw [← String.toList_inj, hlist, natText, String.toList_append, String.toList_ofList,
            String.toList_ofList]
        by_cases hempty : front = []
        · subst hempty
          rw [hkey]
          exact .inl (.code n hbounds.1 hbounds.2)
        · rw [hkey]
          exact .inr (.code n front hbounds.1 hbounds.2 hfront hempty)
      · cases h
    · obtain ⟨leading, hrange, rfl⟩ := Option.map_eq_some_iff.1 h
      obtain ⟨hlow, hhigh, hcs⟩ := range?_eq_some_iff.1 hrange
      have hkey {letters : List Char} (heq : key.toList = leading.digitChar :: letters) :
          key = natText leading ++ String.ofList letters := by
        rw [← String.toList_inj, heq, String.toList_append, toList_natText hhigh,
          String.toList_ofList, List.singleton_append]
      rcases hcs with hcs | hcs
      · exact .inl (hkey hcs ▸ .range leading hlow hhigh)
      · exact .inl (hkey hcs ▸ .lowerRange leading hlow hhigh)

/-! ## Texts of statuses -/

/-- The key with its letters `x` in upper case. -/
def upperX (key : String) : String := Text.replaceChar 'x' "X" key

theorem toList_upperX (key : String) :
    (upperX key).toList = key.toList.map fun c => if c = 'x' then 'X' else c := by
  rw [upperX, Text.replaceChar, String.toList_ofList, List.map_eq_flatMap]
  congr 1
  funext c
  split <;> rfl

@[simp]
theorem length_upperX (key : String) : (upperX key).length = key.length := by
  rw [← String.length_toList, toList_upperX, List.length_map, String.length_toList]

theorem upperX_eq_self (h : 'x' ∉ key.toList) : upperX key = key := by
  rw [← String.toList_inj, toList_upperX]
  refine (List.map_congr_left fun c hc => ?_).trans (List.map_id _)
  exact if_neg fun heq : c = 'x' => h (heq ▸ hc)

theorem upperX_natText (n : Nat) : upperX (natText n) = natText n := by
  refine upperX_eq_self fun h => ?_
  rw [natText, String.toList_ofList] at h
  exact absurd (isDigit_of_mem_toDigits h) (by decide)

/-- A status is written like its key, with `XX` in upper case. -/
theorem text_of_names (h : Names s key) : s.text = upperX key := by
  have hrange : ∀ l < 6, upperX (natText l ++ "XX") = natText l ++ "XX" ∧
      upperX (natText l ++ "xx") = natText l ++ "XX" := by decide
  cases h with
  | default => rfl
  | code n _ _ => exact (upperX_natText n).symm
  | range leading _ hhigh => exact (hrange leading (by omega)).1.symm
  | lowerRange leading _ hhigh => exact (hrange leading (by omega)).2.symm

/-- Padding is not written. -/
theorem text_ne_of_pads (h : Pads s key) : s.text ≠ upperX key := by
  cases h with
  | code n front _ _ _ hne =>
      intro heq
      have hlength := congrArg String.length heq
      rw [length_upperX, String.length_append, text, String.length_ofList] at hlength
      exact hne (List.length_eq_zero_iff.1 (by omega))

/-- The key of a status is not one with padding. -/
theorem not_pads_of_names {t : Status} (h : Names s key) : ¬ Pads t key := by
  intro hpads
  obtain rfl : s = t := Option.some.inj ((ofKey?_of_names h).symm.trans (ofKey?_of_pads hpads))
  exact text_ne_of_pads hpads (text_of_names h)

/-- The key is one of those that statuses have. -/
def IsKey (key : String) : Prop := ∃ s, Names s key

/-- The key is that of a status behind a plus sign or zeros. -/
def IsPadded (key : String) : Prop := ∃ s, Pads s key

/-- A status is written like the key that it was read from if this has no padding, and only then. -/
theorem text_eq_upperX_iff (h : ofKey? key = some s) : s.text = upperX key ↔ ¬ IsPadded key := by
  rcases ofKey?_eq_some_iff.1 h with hnames | hpads
  · exact ⟨fun _ ⟨t, ht⟩ => not_pads_of_names hnames ht, fun _ => text_of_names hnames⟩
  · exact ⟨fun heq => absurd heq (text_ne_of_pads hpads), fun hno => absurd ⟨s, hpads⟩ hno⟩

/-- What is left of a key without a plus sign and zeros in front of it, in upper case. -/
def bare (key : String) : String :=
  upperX (String.ofList ((unsigned key.toList).dropWhile (· == '0')))

theorem bare_padding_append (hfront : IsPadding front) (hn : 0 < n) :
    bare (String.ofList front ++ natText n) = natText n := by
  obtain ⟨zeros, hunsigned, -⟩ := exists_unsigned_padding_append hfront n
  have hkept : (Nat.toDigits 10 n).dropWhile (· == '0') = Nat.toDigits 10 n := by
    have hhead := Decimal.head?_toDigits_ne_zero hn
    cases hdigits : Nat.toDigits 10 n with
    | nil => rfl
    | cons c cs => exact List.dropWhile_cons_of_neg (by simpa [hdigits] using hhead)
  have hdrop : (List.replicate zeros '0' ++ Nat.toDigits 10 n).dropWhile (· == '0') =
      Nat.toDigits 10 n := by
    rw [List.dropWhile_append_of_pos, hkept]
    intro c hc
    simp [List.eq_of_mem_replicate hc]
  rw [bare, String.toList_append, String.toList_ofList, natText, String.toList_ofList, hunsigned,
    hdrop]
  exact upperX_natText n

/-- A status is written like what is left of the key that it was read from. -/
theorem text_eq_bare (h : ofKey? key = some s) : s.text = bare key := by
  have hrange : ∀ l < 6, 1 ≤ l → bare (natText l ++ "XX") = natText l ++ "XX" ∧
      bare (natText l ++ "xx") = natText l ++ "XX" := by decide
  rcases ofKey?_eq_some_iff.1 h with hnames | hpads
  · cases hnames with
    | default => rfl
    | code n hlow _ =>
        have hbare := bare_padding_append isPadding_nil (Nat.lt_of_lt_of_le (by decide) hlow)
        rw [String.ofList_nil, String.empty_append] at hbare
        exact hbare.symm
    | range leading hlow hhigh => exact (hrange leading (by omega) hlow).1.symm
    | lowerRange leading hlow hhigh => exact (hrange leading (by omega) hlow).2.symm
  · cases hpads with
    | code n front hlow _ hfront _ =>
        exact (bare_padding_append hfront (Nat.lt_of_lt_of_le (by decide) hlow)).symm

/-- A status that is read from a key is read from its own text. -/
theorem ofKey?_text (h : ofKey? key = some s) : ofKey? s.text = some s := by
  refine ofKey?_of_names ?_
  rcases ofKey?_eq_some_iff.1 h with hnames | hpads
  · cases hnames with
    | default => exact .default
    | code n hlow hhigh => exact .code n hlow hhigh
    | range leading hlow hhigh => exact .range leading hlow hhigh
    | lowerRange leading hlow hhigh => exact .range leading hlow hhigh
  · cases hpads with
    | code n front hlow hhigh _ _ => exact .code n hlow hhigh

/-- Two keys are read as the same status if the same is left of them. -/
theorem eq_iff_bare_eq {other : String} {t : Status} (h : ofKey? key = some s)
    (h' : ofKey? other = some t) : s = t ↔ bare key = bare other := by
  rw [← text_eq_bare h, ← text_eq_bare h']
  refine ⟨congrArg text, fun heq => ?_⟩
  have hread := ofKey?_text h
  rw [heq, ofKey?_text h'] at hread
  exact (Option.some.inj hread).symm

end Status

/-! ## Responses of an operation -/

namespace Operation.Declaration

open Status (ofKey? IsKey IsPadded upperX bare)

/-- The statuses of the responses that lead somewhere, with their keys. -/
def keyedStatuses (x : Declaration) (d : Document) : List (String × Status) :=
  x.op.responses.filterMap fun (key, item) => do
    let status ← ofKey? key
    let _ ← d.response? item
    return (key, status)

variable (x : Declaration) (d : Document) (promotions : Model.Promotions)

theorem ofKey?_of_mem_keyedStatuses {r : String × Status} (h : r ∈ x.keyedStatuses d) :
    ofKey? r.1 = some r.2 := by
  obtain ⟨⟨key, item⟩, -, hr⟩ := List.mem_filterMap.1 h
  cases hstatus : ofKey? key with
  | none => simp [hstatus] at hr
  | some status =>
      cases hresponse : d.response? item with
      | none => simp [hstatus, hresponse] at hr
      | some response =>
          obtain rfl : (key, status) = r := by simpa [hstatus, hresponse] using hr
          exact hstatus

/-- The outcomes of an operation have these statuses. -/
theorem map_status_build :
    (x.build d promotions).1.outcomes.map (·.status) = (x.keyedStatuses d).map (·.2) := by
  have houtcomes : (x.build d promotions).1.outcomes.map (·.status) =
      ((x.outcomes d promotions).map (·.1)).map (·.status) := by
    change (((x.outcomes d promotions).map (·.1)).map (·.mapModel Model.refreshImports)).map
      (·.status) = _
    rw [List.map_map]
    rfl
  rw [houtcomes, outcomes, keyedStatuses, List.map_filterMap, List.map_filterMap,
    List.map_filterMap]
  congr 1
  funext entry
  obtain ⟨key, item⟩ := entry
  cases hstatus : ofKey? key with
  | none => simp [outcomeOf?, hstatus]
  | some status =>
      cases hresponse : d.response? item with
      | none => simp [outcomeOf?, hstatus, hresponse]
      | some response => simp [outcomeOf?, hstatus, hresponse]

/-- The keys are keys of responses, in order. -/
theorem map_fst_keyedStatuses_sublist :
    ((x.keyedStatuses d).map (·.1)).Sublist (x.op.responses.map (·.1)) := by
  rw [keyedStatuses]
  induction x.op.responses with
  | nil => exact .slnil
  | cons entry rest ih =>
      obtain ⟨key, item⟩ := entry
      cases hstatus : ofKey? key with
      | none => simpa [hstatus] using ih.cons key
      | some status =>
          cases hresponse : d.response? item with
          | none => simpa [hstatus, hresponse] using ih.cons key
          | some response => simpa [hstatus, hresponse] using ih

end Operation.Declaration

namespace Status

open Operation (Declaration)

/-- The keys that are read are the keys of statuses and these keys with a plus sign or zeros in
front. A status is written like its key, up to the case of `XX`, exactly if the key has no such
padding. The outcomes of an operation have the statuses of its keys in order, and two of them have
the same status exactly if their keys are the same without padding and up to the case of `XX`;
without padding this is up to the case alone. -/
theorem keys_read_iff (x : Declaration) (d : Document) (promotions : Model.Promotions) :
    (∀ key, (ofKey? key).isSome = true ↔ IsKey key ∨ IsPadded key) ∧
      (∀ key s, ofKey? key = some s → (s.text = upperX key ↔ ¬ IsPadded key)) ∧
      (x.build d promotions).1.outcomes.map (·.status) = (x.keyedStatuses d).map (·.2) ∧
      ((x.keyedStatuses d).map (·.1)).Sublist (x.op.responses.map (·.1)) ∧
      ∀ r ∈ x.keyedStatuses d, ∀ r' ∈ x.keyedStatuses d,
        (r.2 = r'.2 ↔ bare r.1 = bare r'.1) ∧ (¬ IsPadded r.1 → bare r.1 = upperX r.1) := by
  refine ⟨fun key => ?_, fun key s => text_eq_upperX_iff, x.map_status_build d promotions,
    x.map_fst_keyedStatuses_sublist d, fun r hr r' hr' => ?_⟩
  · rw [Option.isSome_iff_exists, IsKey, IsPadded, ← exists_or]
    exact exists_congr fun s => ofKey?_eq_some_iff
  · have hread := x.ofKey?_of_mem_keyedStatuses d hr
    refine ⟨eq_iff_bare_eq hread (x.ofKey?_of_mem_keyedStatuses d hr'), fun hno => ?_⟩
    rw [← text_eq_bare hread, (text_eq_upperX_iff hread).2 hno]

/-- An operation with two responses for one code. -/
def repeatedDeclaration : Declaration where
  path := "/pets"
  method := .get
  op := {
    operationId := some "listPets"
    responses := [("404", .inline { description := "no pets" }),
      ("+0404", .inline { description := "no list" })] }
  shared := []

/-- The document with this operation. -/
def repeatedDocument : Document where
  openapi := "3.0.0"
  paths := [("/pets", { operations := [(.get, repeatedDeclaration.op)] })]

theorem keys_read_iff_repeated :
    ("404", .code 404) ∈ repeatedDeclaration.keyedStatuses repeatedDocument ∧
      ("+0404", .code 404) ∈ repeatedDeclaration.keyedStatuses repeatedDocument ∧
      bare "404" = bare "+0404" ∧ (Status.code 404).text = upperX "404" := by
  have hkey : ("404", .code 404) ∈ repeatedDeclaration.keyedStatuses repeatedDocument := by decide
  have hpadded : ("+0404", .code 404) ∈ repeatedDeclaration.keyedStatuses repeatedDocument := by
    decide
  obtain ⟨-, htext, -, -, hsame⟩ := keys_read_iff repeatedDeclaration repeatedDocument []
  refine ⟨hkey, hpadded, (hsame _ hkey _ hpadded).1.1 rfl, (htext "404" _ (by decide)).2 ?_⟩
  rintro ⟨s, hpads⟩
  exact not_pads_of_names (.code 404 (by decide) (by decide)) hpads

/-- A plus sign and a zero in front of a code are read over, so that two keys give one code. -/
theorem not_keys_read :
    (ofKey? "+0404").isSome = true ∧ ¬ IsKey "+0404" ∧
      (∀ s, ofKey? "+0404" = some s → s.text ≠ upperX "+0404") ∧
      (repeatedDeclaration.build repeatedDocument []).1.outcomes.map (·.status) =
        [.code 404, .code 404] := by
  have hpads : Pads (.code 404) "+0404" :=
    .code 404 ['+', '0'] (by decide) (by decide) ⟨1, .inr rfl⟩ (by decide)
  refine ⟨by decide, ?_, fun s hs heq => (text_eq_upperX_iff hs).1 heq ⟨_, hpads⟩, by decide⟩
  rintro ⟨s, hnames⟩
  exact not_pads_of_names hnames hpads

end Status

end TypedClient
