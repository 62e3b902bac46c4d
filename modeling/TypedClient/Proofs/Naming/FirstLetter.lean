import TypedClient.Proofs.Naming.Words

/-!
# First letters

Camel case starts with a small letter or a digit (`startsSmall_camelCase`), and names of services
start with a capital (`startsCapital_serviceName`). So no two of them are the same
(`StartsSmall.ne`), and a capital in place of a small letter in front keeps names apart
(`StartsSmall.capitalize_inj`).
-/

namespace TypedClient.Naming

/-- The first character is one of names, and no capital letter. -/
def StartsSmall (name : String) : Prop :=
  ∃ c cs, name.toList = c :: cs ∧ isNameChar c = true ∧ c.toUpper.toLower = c

/-- The first character is a capital letter. -/
def StartsCapital (name : String) : Prop := ∃ c cs, name.toList = c :: cs ∧ c.isUpper = true

instance (name : String) : Decidable (StartsCapital name) :=
  decidable_of_iff (name.toList.head?.any Char.isUpper = true) <| by
    cases h : name.toList with
    | nil => simp [StartsCapital, h]
    | cons c cs => simp [StartsCapital, h]

theorem StartsSmall.append {name : String} (h : StartsSmall name) (other : String) :
    StartsSmall (name ++ other) := by
  obtain ⟨c, cs, heq, hsmall⟩ := h
  exact ⟨c, cs ++ other.toList, by rw [String.toList_append, heq, List.cons_append], hsmall⟩

theorem StartsCapital.append {name : String} (h : StartsCapital name) (other : String) :
    StartsCapital (name ++ other) := by
  obtain ⟨c, cs, heq, hcapital⟩ := h
  exact ⟨c, cs ++ other.toList, by rw [String.toList_append, heq, List.cons_append], hcapital⟩

theorem StartsSmall.ne {name other : String} (h : StartsSmall name) (h' : StartsCapital other) :
    name ≠ other := by
  rintro rfl
  obtain ⟨c, cs, heq, hname, hsmall⟩ := h
  obtain ⟨c', cs', heq', hcapital⟩ := h'
  obtain ⟨rfl, -⟩ : c = c' ∧ cs = cs' := by simpa using heq.symm.trans heq'
  exact Text.forall_ascii (P := fun c => c.isUpper = true → c.toUpper.toLower ≠ c)
    (by decide) (toNat_lt_of_isNameChar hname) hcapital hsmall

/-- A small letter can be told from its capital. -/
theorem StartsSmall.capitalize_inj {name other : String} (h : StartsSmall name)
    (h' : StartsSmall other) (heq : Text.capitalize name = Text.capitalize other) :
    name = other := by
  obtain ⟨c, cs, hcs, hname, hsmall⟩ := h
  obtain ⟨d, ds, hds, hother, hsmall'⟩ := h'
  have hchars := congrArg String.toList heq
  simp only [Text.capitalize, String.toList_ofList, hcs, hds, Text.capitalizeList, Text.upperChar,
    toNat_lt_of_isNameChar hname, toNat_lt_of_isNameChar hother, if_true, List.cons_append,
    List.nil_append, List.cons.injEq] at hchars
  have hfirst : c = d := by rw [← hsmall, ← hsmall', hchars.1]
  rw [← String.toList_inj, hcs, hds, hfirst, hchars.2]

/-! ## Camel case -/

theorem StartsSmall.numbered {name : String} (h : StartsSmall name) (n : Nat) :
    StartsSmall (numbered name n) :=
  h.append (toString n)

theorem StartsSmall.ne_empty {name : String} (h : StartsSmall name) : name ≠ "" := by
  rintro rfl
  obtain ⟨c, cs, heq, -⟩ := h
  cases heq

/-- A letter or digit, put into lower case. -/
theorem isNameChar_toLower {c : Char} (h : c.isAlphanum = true) :
    isNameChar c.toLower = true ∧ c.toLower.toUpper.toLower = c.toLower := by
  refine ⟨isNameChar_of_isAlphanum (Text.isAlphanum_toUpper_toLower h).2, ?_⟩
  exact Text.forall_ascii (P := fun c => c.toLower.toUpper.toLower = c.toLower)
    (by decide) (Text.toNat_lt_of_isAlphanum h)

/-- The words of a name are not empty. -/
theorem ne_nil_of_mem_wordList {cs word : List Char} (h : word ∈ wordList cs) : word ≠ [] := by
  obtain ⟨piece, hpiece, rfl⟩ := List.mem_map.1 h
  have hne : piece ≠ [] := by simpa using (List.mem_filter.1 hpiece).2
  unfold quietWord
  split
  · simpa using hne
  · exact hne

/-- Camel case starts with a small letter or a digit. -/
theorem startsSmall_camelCase {name : String} (h : camelCase name ≠ "") :
    StartsSmall (camelCase name) := by
  unfold camelCase at h ⊢
  split
  · rename_i hwords
    simp [hwords] at h
  · rename_i first others hwords
    have hmem : first ∈ wordList name.toList := hwords ▸ List.mem_cons_self
    cases first with
    | nil => exact absurd rfl (ne_nil_of_mem_wordList hmem)
    | cons c cs =>
        have hc := isAlphanum_of_mem_wordList hmem List.mem_cons_self
        exact ⟨c.toLower, cs ++ others.flatMap Text.capitalizeList, by simp [lowerFirst],
          isNameChar_toLower hc⟩

/-! ## Names of services -/

/-- The first piece starts where the text does. -/
theorem exists_splitList_cons {α : Type} {p : α → Bool} {x : α} (hx : p x = false) (xs : List α) :
    ∃ piece pieces, Text.splitList p (x :: xs) = (x :: piece) :: pieces := by
  rw [Text.splitList, if_neg (by simp [hx])]
  split
  · exact ⟨[], [], rfl⟩
  · exact ⟨_, _, rfl⟩

/-- A letter at the start of a name is at the start of its first word. -/
theorem exists_wordList_cons {c : Char} (hc : c.isAlpha = true) (cs : List Char) :
    ∃ d word others, wordList (c :: cs) = (d :: word) :: others ∧ d.isAlpha = true := by
  have hcode : c.toNat < 128 := Text.toNat_lt_of_isAlphanum (by simp [Char.isAlphanum, hc])
  have hlower : c.toLower.isAlpha = true :=
    Text.forall_ascii (P := fun c => c.isAlpha = true → c.toLower.isAlpha = true)
      (by decide) hcode hc
  obtain ⟨piece, pieces, hsplit⟩ := exists_splitList_cons (p := fun c => !c.isAlphanum) (x := c)
    (by simp [Char.isAlphanum, hc]) cs
  rw [wordList, hsplit, List.filter_cons_of_pos (by simp), List.map_cons]
  unfold quietWord
  split
  · exact ⟨c.toLower, piece.map Char.toLower, _, rfl, hlower⟩
  · exact ⟨c, piece, _, rfl, hc⟩

/-- The name of a service starts with a capital letter, whatever the tag is. -/
theorem startsCapital_serviceName (tag : String) : StartsCapital (serviceName tag) := by
  have hdefault : "Default".toList = 'D' :: ['e', 'f', 'a', 'u', 'l', 't'] := by decide
  simp only [serviceName]
  split
  · exact ⟨'D', _, hdefault, by decide⟩
  · rename_i hne
    cases htag : tag.toList.dropWhile (!·.isAlpha) with
    | nil => simp [htag, pascalCase, wordList, Text.splitList] at hne
    | cons c cs =>
        have hc : c.isAlpha = true := by
          have hhead := List.head_dropWhile_not (!·.isAlpha) (l := tag.toList) (by simp [htag])
          simpa [htag] using hhead
        obtain ⟨d, word, others, hwords, hd⟩ := exists_wordList_cons hc cs
        have hcode : d.toNat < 128 := Text.toNat_lt_of_isAlphanum (by simp [Char.isAlphanum, hd])
        have hupper : d.toUpper.isUpper = true :=
          Text.forall_ascii (P := fun c => c.isAlpha = true → c.toUpper.isUpper = true)
            (by decide) hcode hd
        refine ⟨d.toUpper, word ++ others.flatMap Text.capitalizeList, ?_, hupper⟩
        rw [pascalCase, String.toList_ofList, String.toList_ofList, hwords, List.flatMap_cons,
          Text.capitalizeList, Text.upperChar, if_pos hcode]
        rfl

end TypedClient.Naming
