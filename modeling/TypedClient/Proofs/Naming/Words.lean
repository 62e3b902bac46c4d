import TypedClient.Naming.Identifier
import TypedClient.Proofs.Naming.TypeName
import TypedClient.Proofs.Text.Pieces

/-!
# The characters of names

The words of a name are made of ASCII letters and digits, and joining them adds nothing else:
`isAlphanum_of_mem_pascalCase`, `isAlphanum_of_mem_camelCase`. The name of a service is of this kind
whatever the tag is.

A word holds nothing but the characters of names (`IsWord`). Type names are words, and a number
behind a word or a capital at its start leaves it one.
-/

namespace TypedClient

/-! ## Letters and digits -/

namespace Text

/-- A letter or digit is an ASCII character. -/
theorem toNat_lt_of_isAlphanum {c : Char} (h : c.isAlphanum = true) : c.toNat < 128 := by
  change ((decide (65 ≤ c.val ∧ c.val ≤ 90) ||
    decide (97 ≤ c.val) && decide (c.val ≤ 122)) ||
      decide (48 ≤ c.val) && decide (c.val ≤ 57)) = true at h
  simp only [Bool.or_eq_true, Bool.and_eq_true, decide_eq_true_eq,
    UInt32.le_iff_toNat_le] at h
  change ((65 ≤ c.toNat ∧ c.toNat ≤ 90) ∨ (97 ≤ c.toNat ∧ c.toNat ≤ 122)) ∨
    (48 ≤ c.toNat ∧ c.toNat ≤ 57) at h
  omega

/-- What holds of the 128 codes of ASCII holds of its characters. -/
theorem forall_ascii {P : Char → Prop} (hcodes : ∀ code < 128, P (Char.ofNat code)) {c : Char}
    (hc : c.toNat < 128) : P c := by
  have hcode := hcodes c.toNat hc
  rwa [Char.ofNat_toNat] at hcode

/-- The other case of a letter is a letter, and digits have none. -/
theorem isAlphanum_toUpper_toLower {c : Char} (h : c.isAlphanum = true) :
    c.toUpper.isAlphanum = true ∧ c.toLower.isAlphanum = true :=
  forall_ascii (P := fun c => c.isAlphanum = true →
    c.toUpper.isAlphanum = true ∧ c.toLower.isAlphanum = true)
    (by decide) (toNat_lt_of_isAlphanum h) h

end Text

namespace Naming

/-- The words of a name hold letters and digits only. -/
theorem isAlphanum_of_mem_wordList {cs word : List Char} {c : Char} (hword : word ∈ wordList cs)
    (hc : c ∈ word) : c.isAlphanum = true := by
  obtain ⟨piece, hpiece, rfl⟩ := List.mem_map.1 hword
  have hpieces : ∀ d ∈ piece, d.isAlphanum = true := by
    intro d hd
    simpa using (Text.mem_of_mem_splitList (List.mem_of_mem_filter hpiece) hd).2
  unfold quietWord at hc
  split at hc
  · obtain ⟨d, hd, rfl⟩ := List.mem_map.1 hc
    exact (Text.isAlphanum_toUpper_toLower (hpieces d hd)).2
  · exact hpieces c hc

/-- A capital letter in front leaves letters and digits. -/
theorem isAlphanum_of_mem_capitalizeList {word : List Char} {c : Char}
    (hword : ∀ d ∈ word, d.isAlphanum = true) (hc : c ∈ Text.capitalizeList word) :
    c.isAlphanum = true := by
  cases word with
  | nil => cases hc
  | cons d ds =>
      have hd : d.isAlphanum = true := hword d List.mem_cons_self
      rw [Text.capitalizeList, Text.upperChar, if_pos (Text.toNat_lt_of_isAlphanum hd)] at hc
      rcases List.mem_append.1 hc with hc | hc
      · obtain rfl := List.mem_singleton.1 hc
        exact (Text.isAlphanum_toUpper_toLower hd).1
      · exact hword c (List.mem_cons_of_mem _ hc)

/-- Joined words hold letters and digits only. -/
theorem isAlphanum_of_mem_pascalCase {name : String} {c : Char}
    (h : c ∈ (pascalCase name).toList) : c.isAlphanum = true := by
  rw [pascalCase, String.toList_ofList] at h
  obtain ⟨word, hword, hc⟩ := List.mem_flatMap.1 h
  exact isAlphanum_of_mem_capitalizeList (fun d hd => isAlphanum_of_mem_wordList hword hd) hc

/-- Camel case holds letters and digits only. -/
theorem isAlphanum_of_mem_camelCase {name : String} {c : Char} (h : c ∈ (camelCase name).toList) :
    c.isAlphanum = true := by
  unfold camelCase at h
  split at h
  · exact absurd h (by simp)
  · rename_i first others hwords
    have hfirst : ∀ d ∈ first, d.isAlphanum = true := fun d hd =>
      isAlphanum_of_mem_wordList (hwords ▸ List.mem_cons_self) hd
    rw [String.toList_ofList] at h
    rcases List.mem_append.1 h with hc | hc
    · cases first with
      | nil => cases hc
      | cons d ds =>
          rw [List.forall_mem_cons] at hfirst
          rcases List.mem_cons.1 hc with rfl | hc
          · exact (Text.isAlphanum_toUpper_toLower hfirst.1).2
          · exact hfirst.2 c hc
    · obtain ⟨word, hword, hc⟩ := List.mem_flatMap.1 hc
      have hmem : word ∈ wordList name.toList := hwords ▸ List.mem_cons_of_mem _ hword
      exact isAlphanum_of_mem_capitalizeList (fun d hd => isAlphanum_of_mem_wordList hmem hd) hc

/-- The name of a service holds letters and digits only. -/
theorem isAlphanum_of_mem_serviceName {tag : String} {c : Char}
    (h : c ∈ (serviceName tag).toList) : c.isAlphanum = true := by
  simp only [serviceName] at h
  split at h
  · have hdefault : "Default".toList.all Char.isAlphanum = true := by decide
    exact List.all_eq_true.1 hdefault c h
  · exact isAlphanum_of_mem_pascalCase h

/-! ## Words -/

/-- A text of characters of names only. -/
def IsWord (name : String) : Prop := ∀ c ∈ name.toList, isNameChar c = true

instance (name : String) : Decidable (IsWord name) :=
  decidable_of_iff (name.toList.all isNameChar = true) List.all_eq_true

theorem isNameChar_of_isAlphanum {c : Char} (h : c.isAlphanum = true) : isNameChar c = true := by
  simp [isNameChar, h]

theorem isWord_ofList {cs : List Char} :
    IsWord (String.ofList cs) ↔ ∀ c ∈ cs, isNameChar c = true := by
  rw [IsWord, String.toList_ofList]

theorem IsWord.append {name other : String} (h : IsWord name) (h' : IsWord other) :
    IsWord (name ++ other) := by
  intro c hc
  rw [String.toList_append] at hc
  exact (List.mem_append.1 hc).elim (h c) (h' c)

theorem IsTypeName.isWord {name : String} (h : IsTypeName name) : IsWord name := h.isNameChar

/-- Characters of names behind a type name leave it one. -/
theorem IsTypeName.append {name other : String} (h : IsTypeName name) (h' : IsWord other) :
    IsTypeName (name ++ other) := by
  obtain ⟨c, cs, heq, hstart, hall⟩ := h
  exact ⟨c, cs ++ other.toList, by rw [String.toList_append, heq, List.cons_append], hstart,
    List.forall_mem_append.2 ⟨hall, h'⟩⟩

theorem isWord_pascalCase (name : String) : IsWord (pascalCase name) :=
  fun _ hc => isNameChar_of_isAlphanum (isAlphanum_of_mem_pascalCase hc)

theorem IsWord.numbered {name : String} (h : IsWord name) (n : Nat) : IsWord (numbered name n) :=
  h.append fun _ hc => isNameChar_of_mem_toString hc

theorem IsWord.unique {name : String} (h : IsWord name) (taken : List String) :
    IsWord (unique name taken) := by
  by_cases hmem : name ∈ taken
  · obtain ⟨n, _, heq, _⟩ := unique_of_mem hmem
    rw [heq]
    exact h.numbered n
  · rwa [unique_of_not_mem hmem]

theorem toNat_lt_of_isNameChar {c : Char} (h : isNameChar c = true) : c.toNat < 128 := by
  simp only [isNameChar, Bool.or_eq_true, beq_iff_eq] at h
  rcases h with (h | rfl) | rfl
  · exact Text.toNat_lt_of_isAlphanum h
  · decide
  · decide

theorem isNameChar_toUpper {c : Char} (h : isNameChar c = true) : isNameChar c.toUpper = true :=
  Text.forall_ascii (P := fun c => isNameChar c = true → isNameChar c.toUpper = true)
    (by decide) (toNat_lt_of_isNameChar h) h

theorem isBlank_of_isNameChar {c : Char} (h : isNameChar c = true) : Text.isBlank c = false :=
  Text.forall_ascii (P := fun c => isNameChar c = true → Text.isBlank c = false)
    (by decide) (toNat_lt_of_isNameChar h) h

/-- The capital of a word's first letter is one of ASCII. -/
theorem IsWord.capitalize {name : String} (h : IsWord name) : IsWord (Text.capitalize name) := by
  rw [Text.capitalize, isWord_ofList]
  cases hname : name.toList with
  | nil => simp [Text.capitalizeList]
  | cons c cs =>
      rw [IsWord, hname, List.forall_mem_cons] at h
      rw [Text.capitalizeList, Text.upperChar, if_pos (toNat_lt_of_isNameChar h.1)]
      exact List.forall_mem_cons.2 ⟨isNameChar_toUpper h.1, h.2⟩

end Naming

end TypedClient
