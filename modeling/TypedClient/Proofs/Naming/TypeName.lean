import TypedClient.Model.Basic
import TypedClient.Proofs.Naming.Runs
import TypedClient.Proofs.Naming.Unique

/-!
# The form of type names

`isTypeName_typeName` says that every text gets a type name of the same form: a letter,
an underscore or a dollar sign, followed by such characters and digits. A number behind
a type name keeps the form, so that the free names of `Naming.unique` have it as well.
What has the form stays as it is, so that taking type names is a retraction of all texts
onto those of the form: `typeName_retraction`.

Names of values are kept apart from the reserved words, but type names are not. The type name
of a text is reserved exactly if the text is a reserved word once the characters in front that
cannot start a name are dropped (`typeName_mem_reservedWords_iff`). A number behind a name
makes it a free word, so that among the names that are given out in a row a reserved one is
always one that was asked for: `reserved_uniques_iff`.
-/

namespace TypedClient.Naming

/-- A name starts with a letter, an underscore or a dollar sign, and digits may follow. -/
def IsTypeName (name : String) : Prop :=
  ∃ c cs, name.toList = c :: cs ∧ isNameStart c = true ∧ ∀ d ∈ cs, isNameChar d = true

theorem IsTypeName.isNameChar {name : String} (h : IsTypeName name) :
    ∀ c ∈ name.toList, isNameChar c = true := by
  obtain ⟨c, cs, heq, hstart, hall⟩ := h
  rw [heq]
  exact List.forall_mem_cons.2 ⟨isNameChar_of_isNameStart hstart, hall⟩

/-- There is no foreign character in a type name. -/
theorem IsTypeName.not_mem {name : String} (h : IsTypeName name) {c : Char}
    (hc : Naming.isNameChar c = false) : c ∉ name.toList :=
  fun hmem => Bool.eq_false_iff.1 hc (h.isNameChar c hmem)

/-- The type name of a text is what is made of it. -/
theorem typeName_eq_iff {text name : String} :
    typeName text = name ↔ Makes text.toList name.toList := by
  rw [makes_iff, typeName, ← String.toList_inj, String.toList_ofList]

/-- Every text gets a type name of the right form. -/
theorem isTypeName_typeName (text : String) : IsTypeName (typeName text) :=
  (typeName_eq_iff.1 rfl).form

/-- The digits of a number may stand in a name. -/
theorem isNameChar_of_mem_toString {n : Nat} {d : Char} (h : d ∈ (toString n).toList) :
    isNameChar d = true :=
  isNameChar_of_isDigit (isDigit_of_mem_toString h)

/-- A number behind a name keeps its form. -/
theorem IsTypeName.numbered {name : String} (h : IsTypeName name) (n : Nat) :
    IsTypeName (numbered name n) := by
  obtain ⟨c, cs, heq, hstart, hall⟩ := h
  refine ⟨c, cs ++ (toString n).toList, ?_, hstart, fun d hd => ?_⟩
  · rw [Naming.numbered, String.toList_append, heq, List.cons_append]
  · rcases List.mem_append.1 hd with hd | hd
    · exact hall d hd
    · exact isNameChar_of_mem_toString hd

/-- Making a type name free keeps its form. -/
theorem IsTypeName.unique {name : String} (h : IsTypeName name) (taken : List String) :
    IsTypeName (unique name taken) := by
  by_cases hmem : name ∈ taken
  · obtain ⟨n, _, heq, _⟩ := unique_of_mem hmem
    rw [heq]
    exact h.numbered n
  · rwa [unique_of_not_mem hmem]

/-! ## Reserved words -/

/-- The text without the characters in front that cannot start a name. -/
def bare (text : String) : String := String.ofList (text.toList.dropWhile (!isNameStart ·))

/-- Reserved words are written in small letters. -/
theorem isLower_of_mem_reservedWords {word : String} (h : word ∈ reservedWords) {c : Char}
    (hc : c ∈ word.toList) : c.isLower = true := by
  have hall : ∀ word ∈ reservedWords, word.toList.all Char.isLower = true := by decide
  exact List.all_eq_true.1 (hall word h) c hc

/-- A number behind a name makes it a free word. -/
theorem numbered_not_mem_reservedWords (base : String) (n : Nat) :
    numbered base n ∉ reservedWords := by
  have hall : ∀ word ∈ reservedWords, ¬ EndsInDigit word := by decide
  exact fun hmem => hall _ hmem (endsInDigit_numbered base n)

/-- A name that is made free is reserved only if it is free and reserved as it stands. -/
theorem unique_mem_reservedWords_iff {base : String} {taken : List String} :
    unique base taken ∈ reservedWords ↔ base ∉ taken ∧ base ∈ reservedWords := by
  by_cases hmem : base ∈ taken
  · obtain ⟨n, _, heq, _⟩ := unique_of_mem hmem
    rw [heq]
    simp [hmem, numbered_not_mem_reservedWords]
  · rw [unique_of_not_mem hmem]
    simp [hmem]

/-- The taken names and those that are given out after them are free words exactly if the taken
ones and all that are asked for are. -/
theorem reserved_uniques_iff {α : Type} {base : α → String} {taken : List String}
    {items : List α} :
    (∀ name ∈ taken ++ uniques base taken items, name ∉ reservedWords) ↔
      (∀ name ∈ taken, name ∉ reservedWords) ∧ ∀ a ∈ items, base a ∉ reservedWords := by
  rw [List.forall_mem_append]
  induction items generalizing taken with
  | nil => simp [uniques]
  | cons a rest ih =>
      have hrest := @ih (unique (base a) taken :: taken)
      rw [List.forall_mem_cons, unique_mem_reservedWords_iff] at hrest
      rw [uniques, List.forall_mem_cons, List.forall_mem_cons, unique_mem_reservedWords_iff]
      -- A reserved word that is asked for is given, or it was taken before.
      have htaken : (∀ name ∈ taken, name ∉ reservedWords) → base a ∈ taken →
          base a ∉ reservedWords := fun hfree hmem => hfree _ hmem
      tauto

/-! ## The type names of texts -/

/-- A name of the form of a type name is its own type name. -/
theorem typeName_eq_self {name : String} (h : IsTypeName name) : typeName name = name := by
  have hself : Collapses name.toList name.toList := collapses_self h.isNameChar
  obtain ⟨c, cs, hname, hstart, -⟩ := h
  rw [hname] at hself
  have hmakes : Makes ([] ++ c :: cs) (c :: cs) := .ofStart (by simp) hstart hself
  rwa [typeName_eq_iff, hname]

theorem isAlpha_of_isLower {c : Char} (h : c.isLower = true) : c.isAlpha = true := by
  show (c.isUpper || c.isLower) = true
  rw [h, Bool.or_true]

theorem isNameChar_of_isLower {c : Char} (h : c.isLower = true) : isNameChar c = true := by
  simp [isNameChar, Char.isAlphanum, isAlpha_of_isLower h]

/-- The type name of a text is reserved exactly if the text is, once the characters in front that
cannot start a name are dropped. -/
theorem typeName_mem_reservedWords_iff {text : String} :
    typeName text ∈ reservedWords ↔ bare text ∈ reservedWords := by
  have hmakes := makes_iff.2 (Eq.refl (typeNameList text.toList))
  rw [typeName, bare]
  generalize typeNameList text.toList = name at hmakes
  generalize text.toList = cs at hmakes
  have hlower : ∀ {word : List Char}, String.ofList word ∈ reservedWords →
      ∀ c ∈ word, c.isLower = true := fun hword c hc =>
    isLower_of_mem_reservedWords hword (by rwa [String.toList_ofList])
  have hempty : String.ofList [] ∉ reservedWords := by decide
  cases hmakes with
  | @ofStart front rest name c hfront hc hname =>
      rw [dropWhile_not_isNameStart_append hfront hc]
      -- Reserved words hold no underscore and no foreign character, so that no run is in either.
      constructor
      · intro hmem
        have hunder : '_' ∉ name := fun hd => absurd (hlower hmem '_' hd) (by decide)
        rwa [← hname.eq_self hunder]
      · intro hmem
        have hself : Collapses (c :: rest) (c :: rest) :=
          collapses_self fun d hd => isNameChar_of_isLower (hlower hmem d hd)
        rwa [← hname.joinRuns_eq, hself.joinRuns_eq]
  | ofDigits houter hmiddle _ _ _ =>
      rw [dropWhile_not_isNameStart_of_foreign houter hmiddle]
      refine iff_of_false (fun hmem => ?_) hempty
      exact absurd (hlower hmem '_' List.mem_cons_self) (by decide)
  | ofNothing hforeign =>
      rw [dropWhile_not_isNameStart_eq_nil fun c hc => isNameStart_eq_false (hforeign c hc)]
      exact iff_of_false (by decide) hempty

/-- The name of the model of a shared response is a free word. -/
theorem responseModelName_not_mem_reservedWords (component mediaType : String) :
    typeName (responseModelName component mediaType) ∉ reservedWords := by
  intro hmem
  have hbare := typeName_mem_reservedWords_iff.1 hmem
  have htext : 'R' ∈ (responseModelName component mediaType).toList := by
    rw [responseModelName, String.toList_append, List.mem_append]
    exact .inr (by decide)
  -- A capital may start a name, so that it is not dropped.
  have hkept : 'R' ∈ (bare (responseModelName component mediaType)).toList := by
    rw [bare, String.toList_ofList]
    rw [← List.takeWhile_append_dropWhile (p := (!isNameStart ·))
      (l := (responseModelName component mediaType).toList), List.mem_append] at htext
    refine htext.resolve_left fun hfront => ?_
    have hstart := List.all_eq_true.1 List.all_takeWhile _ hfront
    exact absurd hstart (by decide)
  exact absurd (isLower_of_mem_reservedWords hbare hkept) (by decide)

/-! ## A retraction -/

/-- Texts are retracted onto names of the form of a type name. Every text gets the name that is
made of it, and this has the form: there is no mark of a name that is not final in it, and no
separator of paths. Exactly the texts of the form are left as they are, and so the type name of a
type name is itself. -/
theorem typeName_retraction :
    (∀ text name, typeName text = name ↔ Makes text.toList name.toList) ∧
      (∀ text, IsTypeName (typeName text) ∧ Model.provisionalMark ∉ (typeName text).toList ∧
        '/' ∉ (typeName text).toList ∧ '\\' ∉ (typeName text).toList) ∧
      (∀ name, typeName name = name ↔ IsTypeName name) ∧
      ∀ text, typeName (typeName text) = typeName text := by
  refine ⟨fun _ _ => typeName_eq_iff, fun text => ?_, fun name => ⟨fun heq => ?_, typeName_eq_self⟩,
    fun text => typeName_eq_self (isTypeName_typeName text)⟩
  · have hform := isTypeName_typeName text
    exact ⟨hform, hform.not_mem (by decide), hform.not_mem (by decide), hform.not_mem (by decide)⟩
  · rw [← heq]
    exact isTypeName_typeName name

/-- The three ways, and the characters that are kept in each. -/
example : typeName "1-Pet.v 2" = "Pet_v_2" ∧ typeName " -1..2/ " = "_1_2" ∧
    typeName "é/ñ" = "Model" := by decide

end TypedClient.Naming
