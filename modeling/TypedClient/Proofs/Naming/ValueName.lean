import TypedClient.Proofs.Naming.FirstLetter

/-!
# Names of values

A variable can have any name of ASCII letters, digits and underscores that does not start with a
digit and is no reserved word (`IsVariableName`). Text in camel case consists of letters and digits,
so that it needs an underscore in front exactly if no variable can have that name:
`valueName_cases`.

So every text gets a name that a variable can have. No reserved word has a digit, and therefore it
remains one where decimal digits are put behind it to make it free (`valueName_fits_variable`). In
addition, such a name never starts with a capital letter: `isValueName_valueName`.
-/

namespace TypedClient.Naming

/-- The characters of names of values. -/
def isValueChar (c : Char) : Bool := c.isAlphanum || c == '_'

theorem isValueChar_of_isAlphanum {c : Char} (h : c.isAlphanum = true) : isValueChar c = true := by
  simp [isValueChar, h]

theorem isNameChar_of_isValueChar {c : Char} (h : isValueChar c = true) : isNameChar c = true := by
  simp only [isValueChar, isNameChar, Bool.or_eq_true] at h ⊢
  exact .inl h

/-! ## Names of variables -/

/-- Digits are no letters. -/
theorem not_isAlpha_of_isDigit {c : Char} (h : c.isDigit = true) : ¬ c.isAlpha = true :=
  Text.forall_ascii (P := fun c => c.isDigit = true → ¬ c.isAlpha = true)
    (by decide) (Text.toNat_lt_of_isAlphanum (by simp [Char.isAlphanum, h])) h

/-- No reserved word has an underscore. -/
theorem underscore_append_not_mem_reservedWords (rest : String) : "_" ++ rest ∉ reservedWords := by
  intro hreserved
  have hmem : '_' ∈ ("_" ++ rest).toList := by simp
  exact absurd (isLower_of_mem_reservedWords hreserved hmem) (by decide)

/-- A name that a variable can have: ASCII characters, a letter or an underscore in front and
letters, digits and underscores behind it, and no reserved word. -/
structure IsVariableName (name : String) : Prop where
  ascii : ∀ c ∈ name.toList, c.toNat < 128
  form : ∃ c cs, name.toList = c :: cs ∧ (c.isAlpha = true ∨ c = '_') ∧
    ∀ d ∈ cs, isValueChar d = true
  free : name ∉ reservedWords

/-- Letters and digits are the name of a variable unless a digit is in front or they are a reserved
word. -/
theorem isVariableName_iff {name : String} (hchars : ∀ c ∈ name.toList, c.isAlphanum = true) :
    IsVariableName name ↔
      (∃ c cs, name.toList = c :: cs ∧ c.isDigit = false) ∧ name ∉ reservedWords := by
  constructor
  · rintro ⟨-, ⟨c, cs, heq, hstart, -⟩, hfree⟩
    refine ⟨⟨c, cs, heq, Bool.eq_false_iff.2 fun hdigit => ?_⟩, hfree⟩
    rcases hstart with halpha | rfl
    · exact not_isAlpha_of_isDigit hdigit halpha
    · exact absurd hdigit (by decide)
  · rintro ⟨⟨c, cs, heq, hdigit⟩, hfree⟩
    refine ⟨fun d hd => Text.toNat_lt_of_isAlphanum (hchars d hd), ⟨c, cs, heq, ?_, ?_⟩, hfree⟩
    · have hc := hchars c (heq ▸ List.mem_cons_self)
      exact .inl (by simpa [Char.isAlphanum, hdigit] using hc)
    · exact fun d hd => isValueChar_of_isAlphanum (hchars d (heq ▸ List.mem_cons_of_mem _ hd))

/-- The name of a value is the text in camel case if a variable can have that name. Otherwise an
underscore is put in front of it, or of the word `empty` where camel case leaves nothing. -/
theorem valueName_cases (text : String) :
    IsVariableName (camelCase text) ∧ valueName text = camelCase text ∨
      ¬ IsVariableName (camelCase text) ∧
        valueName text = "_" ++ (if camelCase text = "" then "empty" else camelCase text) := by
  rw [isVariableName_iff fun _ hc => isAlphanum_of_mem_camelCase hc, valueName]
  generalize camelCase text = name
  cases hname : name.toList with
  | nil =>
      obtain rfl := String.toList_eq_nil_iff.1 hname
      exact .inr ⟨by simp, by simp⟩
  | cons c cs =>
      have hempty : name ≠ "" := by
        rintro rfl
        simp at hname
      have hunder : String.ofList ('_' :: c :: cs) = "_" ++ name := by
        rw [← String.toList_inj, String.toList_ofList, String.toList_append, hname]
        rfl
      have hself : String.ofList (c :: cs) = name := by rw [← hname, String.ofList_toList]
      cases hdigit : c.isDigit with
      | true =>
          -- With the underscore that a digit gets in front, the name is not reserved.
          simp [hempty, guardDigit, hdigit, hunder, underscore_append_not_mem_reservedWords]
      | false =>
          by_cases hreserved : name ∈ reservedWords
          · simp [hempty, guardDigit, hdigit, hself, hreserved]
          · simp [hempty, guardDigit, hdigit, hself, hreserved]

/-! ## Names of values -/

/-- A name of letters, digits and underscores that is no reserved word, and starts with a small
letter or an underscore. -/
structure IsValueName (name : String) : Prop where
  chars : ∀ c ∈ name.toList, isValueChar c = true
  /-- The first character is neither a digit nor a capital letter. -/
  first : ∃ c cs, name.toList = c :: cs ∧ c.isDigit = false ∧ c.toUpper.toLower = c
  free : name ∉ reservedWords

theorem IsValueName.isWord {name : String} (h : IsValueName name) : IsWord name :=
  fun c hc => isNameChar_of_isValueChar (h.chars c hc)

theorem IsValueName.startsSmall {name : String} (h : IsValueName name) : StartsSmall name := by
  obtain ⟨c, cs, heq, -, hsmall⟩ := h.first
  exact ⟨c, cs, heq, h.isWord c (heq ▸ List.mem_cons_self), hsmall⟩

/-- The first character of a name of a value is a letter or an underscore. -/
theorem IsValueName.exists_first {name : String} (h : IsValueName name) :
    ∃ c cs, name.toList = c :: cs ∧ (c.isAlpha || c == '_') = true ∧
      ∀ d ∈ cs, isValueChar d = true := by
  obtain ⟨c, cs, heq, hdigit, -⟩ := h.first
  have hchars := h.chars
  rw [heq, List.forall_mem_cons] at hchars
  refine ⟨c, cs, heq, ?_, hchars.2⟩
  simpa only [isValueChar, Char.isAlphanum, hdigit, Bool.or_false] using hchars.1

theorem IsValueName.isTypeName {name : String} (h : IsValueName name) : IsTypeName name := by
  obtain ⟨c, cs, heq, hstart, hchars⟩ := h.exists_first
  exact ⟨c, cs, heq, by rw [isNameStart, hstart, Bool.true_or],
    fun d hd => isNameChar_of_isValueChar (hchars d hd)⟩

theorem IsValueName.isVariableName {name : String} (h : IsValueName name) :
    IsVariableName name := by
  refine ⟨fun c hc => toNat_lt_of_isNameChar (h.isWord c hc), ?_, h.free⟩
  obtain ⟨c, cs, heq, hstart, hchars⟩ := h.exists_first
  exact ⟨c, cs, heq, by simpa using hstart, hchars⟩

/-- An underscore makes any such characters the name of a value. -/
theorem isValueName_underscore {rest : String} (h : ∀ c ∈ rest.toList, isValueChar c = true) :
    IsValueName ("_" ++ rest) := by
  have hchars : ("_" ++ rest).toList = '_' :: rest.toList := by simp
  refine ⟨?_, ⟨'_', _, hchars, by decide, by decide⟩,
    underscore_append_not_mem_reservedWords rest⟩
  rw [hchars]
  exact List.forall_mem_cons.2 ⟨by decide, h⟩

/-- The name of a value is of this kind whatever it is made from. -/
theorem isValueName_valueName (text : String) : IsValueName (valueName text) := by
  have hcamel : ∀ c ∈ (camelCase text).toList, isValueChar c = true :=
    fun _ hc => isValueChar_of_isAlphanum (isAlphanum_of_mem_camelCase hc)
  rcases valueName_cases text with ⟨hname, heq⟩ | ⟨-, heq⟩ <;> rw [heq]
  · obtain ⟨⟨c, cs, hcs, hdigit⟩, hfree⟩ :=
      (isVariableName_iff fun _ hc => isAlphanum_of_mem_camelCase hc).1 hname
    have hne : camelCase text ≠ "" := fun hnil => by simp [hnil] at hcs
    obtain ⟨d, ds, hds, -, hsmall⟩ := startsSmall_camelCase hne
    obtain ⟨rfl, -⟩ := List.cons.inj (hcs.symm.trans hds)
    exact ⟨hcamel, ⟨c, cs, hcs, hdigit, hsmall⟩, hfree⟩
  · refine isValueName_underscore ?_
    split
    · have hempty : "empty".toList.all isValueChar = true := by decide
      exact List.all_eq_true.1 hempty
    · exact hcamel

/-- Digits behind the name of a value leave it one, since no reserved word has a digit. -/
theorem IsValueName.append_digits {name digits : String} (h : IsValueName name)
    (hdigits : ∀ d ∈ digits.toList, d.isDigit = true) : IsValueName (name ++ digits) := by
  obtain ⟨c, cs, heq, hfirst⟩ := h.first
  have hchars : (name ++ digits).toList = name.toList ++ digits.toList := String.toList_append
  refine ⟨?_, ⟨c, cs ++ digits.toList, by rw [hchars, heq, List.cons_append], hfirst⟩,
    fun hreserved => ?_⟩
  · rw [hchars]
    exact List.forall_mem_append.2 ⟨h.chars, fun d hd =>
      isValueChar_of_isAlphanum (by simp [Char.isAlphanum, hdigits d hd])⟩
  · cases hcase : digits.toList with
    | nil =>
        rw [String.toList_eq_nil_iff.1 hcase, String.append_empty] at hreserved
        exact h.free hreserved
    | cons d ds =>
        have hd : d ∈ digits.toList := hcase ▸ List.mem_cons_self
        have hlower := isLower_of_mem_reservedWords hreserved
          (hchars ▸ List.mem_append_right _ hd)
        exact not_isAlpha_of_isDigit (hdigits d hd) (isAlpha_of_isLower hlower)

theorem IsValueName.numbered {name : String} (h : IsValueName name) (n : Nat) :
    IsValueName (numbered name n) :=
  h.append_digits fun _ hd => isDigit_of_mem_toString hd

theorem IsValueName.unique {name : String} (h : IsValueName name) (taken : List String) :
    IsValueName (unique name taken) := by
  by_cases hmem : name ∈ taken
  · obtain ⟨n, _, heq, _⟩ := unique_of_mem hmem
    rw [heq]
    exact h.numbered n
  · rwa [unique_of_not_mem hmem]

/-- Whatever it is made from, the name of a value is a name that a variable can have, and it remains
one with decimal digits behind it, in particular where it is made free. It is the text in camel case
unless no variable can have that name. -/
theorem valueName_fits_variable (text : String) :
    IsVariableName (valueName text) ∧
      (∀ digits : String, (∀ d ∈ digits.toList, d.isDigit = true) →
        IsVariableName (valueName text ++ digits)) ∧
      (∀ taken, IsVariableName (unique (valueName text) taken)) ∧
      (IsVariableName (camelCase text) ∧ valueName text = camelCase text ∨
        ¬ IsVariableName (camelCase text) ∧
          valueName text = "_" ++ (if camelCase text = "" then "empty" else camelCase text)) := by
  have hname := isValueName_valueName text
  exact ⟨hname.isVariableName, fun _ hdigits => (hname.append_digits hdigits).isVariableName,
    fun taken => (hname.unique taken).isVariableName, valueName_cases text⟩

/-- A reserved word gets an underscore in front, and a number with leading zeros can follow. -/
theorem valueName_fits_variable_delete :
    valueName "delete" = "_delete" ∧ (∀ d ∈ "007".toList, d.isDigit = true) ∧
      IsVariableName ("_delete" ++ "007") := by
  have hname : valueName "delete" = "_delete" := by decide
  have hall : "007".toList.all Char.isDigit = true := by decide
  have hdigits : ∀ d ∈ "007".toList, d.isDigit = true := List.all_eq_true.1 hall
  refine ⟨hname, hdigits, ?_⟩
  have hvariable := (valueName_fits_variable "delete").2.1 "007" hdigits
  rwa [hname] at hvariable

end TypedClient.Naming
