import TypedClient.Page.Service
import TypedClient.Proofs.Model.Expression
import TypedClient.Proofs.Naming.FirstLetter
import TypedClient.Proofs.Script.Items

/-!
# Signatures

The arguments of an operation are written three times: with their types in its signature, in the
call of its function, and among the values that its hook depends on. The names are read back from
all three, in the same order (`listedNames_signature`, `listedNames_callArguments`,
`listedNames_deps`), and from a positional signature also which of them must be given
(`readItems_signature`).
-/

namespace TypedClient

open Script
open Naming (IsWord StartsSmall)

namespace Model

/-! ## Types as items -/

theorem isItem_withNull {type : String} (h : IsItem type.toList) (nullable : Bool) :
    IsItem (withNull nullable type).toList := by
  unfold withNull
  split
  · have hnull : IsInside " | null".toList := isInside_of_isLevel (by decide)
    have htext : ("(" ++ type ++ " | null)").toList =
        '(' :: (type.toList ++ " | null".toList) ++ [')'] := by
      simp [String.toList_append]
    rw [htext]
    exact isItem_bracketed (by decide) (by decide) (h.isInside.append hnull)
  · exact h

theorem isItem_primitiveType (base : String) : IsItem (primitiveType base).toList := by
  unfold primitiveType
  split
  · exact isItem_of_isPlain (by decide)
  · split
    · exact isItem_of_isPlain (by decide)
    · split
      · rename_i hbase
        have hall : ∀ type ∈ ["string", "boolean", "null", "void", "any"],
            isPlain type.toList = true := by decide
        exact isItem_of_isPlain (hall base hbase)
      · exact isItem_of_isPlain (by decide)

theorem isItem_joinTypes {operator : String} (hoperator : operator.toList.all isLevel = true)
    {types : List String} (h : ∀ type ∈ types, IsItem type.toList) :
    IsItem (joinTypes operator types).toList := by
  unfold joinTypes
  split
  · exact isItem_of_isPlain (by decide)
  · exact h _ List.mem_cons_self
  · have hjoined : IsInside (Json.joinWith operator types).toList := fun depth =>
      .joinWith (isInside_of_isLevel hoperator depth)
        fun type htype => (h type htype).isInside depth
    rw [String.toList_append, String.toList_append]
    exact isItem_bracketed (by decide) (by decide) hjoined

theorem isItem_propertyLine {type : String} (h : IsItem type.toList) (readOnly required : Bool)
    (name : String) : IsItem (propertyLine readOnly required name type).toList := by
  have hreadOnly : IsItem (if readOnly then "readonly " else "").toList := by
    cases readOnly <;> exact isItem_of_isPlain (by decide)
  have hmark : IsItem (if required then "" else "?").toList := by
    cases required <;> exact isItem_of_isPlain (by decide)
  have hcolon : IsItem ": ".toList := isItem_of_isPlain (by decide)
  have hend : IsItem ";\n".toList := isItem_of_isPlain (by decide)
  simp only [propertyLine, String.toList_append]
  exact ((((hreadOnly.append (isItem_propertyKey name)).append hmark).append hcolon).append
    h).append hend

theorem isItem_objectOfLines {lines : List String} (h : ∀ line ∈ lines, IsItem line.toList) :
    IsItem (objectOfLines lines).toList := by
  unfold objectOfLines
  split
  · have hany : IsInside "string, any".toList := isInside_of_isLevel (by decide)
    have hrecord : IsItem "Record".toList := isItem_of_isPlain (by decide)
    have htext : "Record<string, any>".toList =
        "Record".toList ++ ('<' :: "string, any".toList ++ ['>']) := by decide
    rw [htext]
    exact hrecord.append (isItem_bracketed (by decide) (by decide) hany)
  · have hlines : IsItem (Text.concat lines).toList := by
      clear * - h
      induction lines with
      | nil => exact fun depth => .nil _
      | cons line rest ih =>
          rw [Text.concat, List.foldr_cons, String.toList_append]
          exact (h line List.mem_cons_self).append
            (ih fun other hother => h other (List.mem_cons_of_mem _ hother))
    have hfeed : IsInside ['\n'] := isInside_of_isLevel (by decide)
    have htext : ("\x7b\n" ++ Text.concat lines ++ "\x7d").toList =
        '\x7b' :: (['\n'] ++ (Text.concat lines).toList) ++ ['\x7d'] := by
      simp [String.toList_append]
    rw [htext]
    exact isItem_bracketed (by decide) (by decide) (hfeed.append hlines.isInside)

/-- A type between the brackets of a generic one. -/
theorem isItem_generic {before type : String} (h : IsItem type.toList) {name inner : List Char}
    (hbefore : before.toList = name ++ '<' :: inner) (hname : isPlain name = true)
    (hinner : inner.all isLevel = true) : IsItem (before ++ type ++ ">").toList := by
  have htext : (before ++ type ++ ">").toList =
      name ++ ('<' :: (inner ++ type.toList) ++ ['>']) := by
    simp [String.toList_append, hbefore]
  rw [htext]
  exact (isItem_of_isPlain hname).append (isItem_bracketed (by decide) (by decide)
    ((isInside_of_isLevel hinner).append h.isInside))

theorem isCompositional_isItem : IsCompositional fun type => IsItem type.toList where
  primitive := isItem_primitiveType
  withNull _ nullable h := isItem_withNull h nullable
  joinTypes operator hoperator _ h := by
    have hlevel : ∀ operator ∈ [" | ", " & "], operator.toList.all isLevel = true := by decide
    exact isItem_joinTypes (hlevel operator hoperator) h
  array _ h := by
    have hbefore : "Array<".toList = "Array".toList ++ '<' :: [] := by decide
    exact isItem_generic h hbefore (by decide) (by decide)
  record _ h := by
    have hbefore : "Record<string, ".toList = "Record".toList ++ '<' :: "string, ".toList := by
      decide
    exact isItem_generic h hbefore (by decide) (by decide)
  object _ h := isItem_objectOfLines (List.forall_mem_map.2 fun p hp =>
    isItem_propertyLine (h p hp) _ _ _)

/-- The type that a model denotes is one item if the definitions that it mentions have names. -/
theorem isItem_expression {m : Model} (h : ∀ name ∈ m.references, IsWord name) :
    IsItem m.expression.toList :=
  isCompositional_isItem.expression (fun name hname => isItem_of_isWord (h name hname))
    fun _ _ _ member _ => isItem_literal member.value

end Model

/-- The names in an argument can be written. -/
structure Operation.Argument.Named (a : Operation.Argument) : Prop where
  identifier : IsWord a.identifier
  start : StartsSmall a.identifier
  references : ∀ name ∈ a.model.references, IsWord name

namespace Page

open Operation (Argument)

variable {arguments : List Argument}

/-! ## Arguments as items -/

/-- What is read of an argument. -/
def listed (a : Argument) : ListedItem := ⟨a.identifier, a.model.isRequired⟩

theorem isItem_typedName {a : Argument} (h : a.Named) : IsItem (typedName a).toList := by
  have hmark : IsItem (if a.model.isRequired then "" else "?").toList := by
    cases a.model.isRequired <;> exact isItem_of_isPlain (by decide)
  have hcolon : IsItem ": ".toList := isItem_of_isPlain (by decide)
  simp only [typedName, String.toList_append]
  exact (((isItem_of_isWord h.identifier).append hmark).append hcolon).append
    (Model.isItem_expression h.references)

theorem readItem_typedName {a : Argument} (h : a.Named) :
    readItem (typedName a).toList = listed a := by
  have htext : (typedName a).toList = a.identifier.toList ++
      ((if a.model.isRequired then "" else "?").toList ++ (": ".toList ++
        a.model.expression.toList)) := by
    simp only [typedName, String.toList_append, List.append_assoc]
  rw [htext]
  unfold listed
  cases a.model.isRequired with
  | true =>
      refine readItem_append h.identifier h.start.ne_empty ?_
      rintro c ⟨⟩
      decide
  | false =>
      refine readItem_append h.identifier h.start.ne_empty ?_
      rintro c ⟨⟩
      decide

theorem startsSmall_typedName {a : Argument} (h : a.Named) : StartsSmall (typedName a) :=
  ((h.start.append _).append _).append _

theorem startsSmall_joinWith {text : String} (h : StartsSmall text) (separator : String)
    (texts : List String) : StartsSmall (Json.joinWith separator (text :: texts)) := by
  cases texts with
  | nil => exact h
  | cons next others =>
      rw [Json.joinWith]
      · exact (h.append _).append _
      · simp

/-- A list that starts with a name stands in no brackets. -/
theorem listedNames_of_startsSmall {text : String} (h : StartsSmall text) :
    listedNames text = (readItems text.toList).map (·.name) := by
  obtain ⟨c, cs, hcs, hname, -⟩ := h
  have hopening : opensBracket c = false := by
    have hlevel := (isLevel_of_isNameChar hname).1
    simp only [isLevel, Bool.and_eq_true, Bool.not_eq_eq_eq_not, Bool.not_true] at hlevel
    exact hlevel.1.2
  rw [listedNames, hcs]
  simp [hopening]

/-- Items between commas are read back, with blanks around them or without. -/
theorem readItems_joinWith (text : Argument → String) (value : Argument → ListedItem)
    (hne : arguments ≠ []) {blanks : List Char} (hblanks : blanks = [] ∨ blanks = [' '])
    (h : ∀ a ∈ arguments, IsItem (text a).toList ∧ StartsSmall (text a) ∧
      readItem (text a).toList = value a ∧ readItem ((text a).toList ++ blanks) = value a) :
    readItems (blanks ++ (Json.joinWith ", " (arguments.map text)).toList ++ blanks) =
      arguments.map value := by
  have htail : Nesting.pieces {} blanks = [blanks] := by
    rcases hblanks with rfl | rfl <;> rfl
  have hread := map_pieces_joinWith text readItem_blank htail hne
    fun a ha => ⟨(h a ha).1, (h a ha).2.2.1, (h a ha).2.2.2⟩
  obtain ⟨c, cs, hcs⟩ : ∃ c cs, (Json.joinWith ", " (arguments.map text)).toList = c :: cs := by
    cases arguments with
    | nil => exact absurd rfl hne
    | cons a as =>
        obtain ⟨c, cs, hcs, -⟩ := startsSmall_joinWith (h a List.mem_cons_self).2.1 ", "
          (as.map text)
        exact ⟨c, cs, hcs⟩
  rcases hblanks with rfl | rfl
  · rw [List.nil_append, readItems, if_neg (by simp [hcs]), hread]
  · rw [← hread, readItems, if_neg (by simp), List.append_assoc, List.singleton_append]
    exact map_pieces_blank readItem_blank _

/-- From a positional signature the arguments are read back, with those that must be given. -/
theorem readItems_signature (h : ∀ a ∈ arguments, a.Named) :
    readItems (signature arguments false).toList = arguments.map listed := by
  by_cases hempty : arguments = []
  · rw [hempty]
    rfl
  · have hread := readItems_joinWith typedName listed hempty (.inl rfl)
      fun a ha => ⟨isItem_typedName (h a ha), startsSmall_typedName (h a ha),
        readItem_typedName (h a ha), by rw [List.append_nil, readItem_typedName (h a ha)]⟩
    rw [List.nil_append, List.append_nil] at hread
    rw [signature, if_neg (by simpa using hempty), if_neg (by simp), hread]

/-! ## Names -/

theorem readItem_identifier {a : Argument} (h : a.Named) {blanks : List Char}
    (hblanks : blanks = [] ∨ blanks = [' ']) :
    readItem (a.identifier.toList ++ blanks) = ⟨a.identifier, true⟩ := by
  rcases hblanks with rfl | rfl
  · exact readItem_append h.identifier h.start.ne_empty (by simp)
  · refine readItem_append h.identifier h.start.ne_empty ?_
    rintro c ⟨⟩
    decide

/-- The names between commas are read back, with blanks around them or without. -/
theorem readItems_nameList (h : ∀ a ∈ arguments, a.Named) (hne : arguments ≠ [])
    {blanks : List Char} (hblanks : blanks = [] ∨ blanks = [' ']) :
    (readItems (blanks ++ (nameList arguments).toList ++ blanks)).map (·.name) =
      arguments.map (·.identifier) := by
  have hread := readItems_joinWith (·.identifier) (⟨·.identifier, true⟩) hne hblanks fun a ha =>
    ⟨isItem_of_isWord (h a ha).identifier, (h a ha).start, by
      have hitem := readItem_identifier (h a ha) (.inl rfl)
      rwa [List.append_nil] at hitem, readItem_identifier (h a ha) hblanks⟩
  rw [nameList, hread, List.map_map]
  rfl

/-- The names in brackets are read back, whatever comes behind. -/
theorem listedNames_bracketed (h : ∀ a ∈ arguments, a.Named) (hne : arguments ≠ [])
    {blanks : List Char} (hblanks : blanks = [] ∨ blanks = [' ']) {opening closing : Char}
    (hopening : opensBracket opening = true) (hclosing : closesBracket closing = true)
    {text : String} {rest : List Char}
    (htext : text.toList =
      opening :: (blanks ++ (nameList arguments).toList ++ blanks ++ closing :: rest)) :
    listedNames text = arguments.map (·.identifier) := by
  have hinside : ∀ c ∈ blanks ++ (nameList arguments).toList ++ blanks,
      (!closesBracket c) = true := by
    have hblank : ∀ c ∈ blanks, (!closesBracket c) = true := by
      refine List.all_eq_true.1 ?_
      rcases hblanks with rfl | rfl <;> decide
    have hnames : ∀ c ∈ (nameList arguments).toList, (!closesBracket c) = true := by
      refine forall_mem_joinWith (List.all_eq_true.1 (by decide)) fun text htext c hc => ?_
      obtain ⟨a, ha, rfl⟩ := List.mem_map.1 htext
      have hlevel := (isLevel_of_isNameChar ((h a ha).identifier c hc)).1
      exact (Bool.and_eq_true_iff.1 hlevel).2
    intro c hc
    rcases List.mem_append.1 hc with hc | hc
    · exact (List.mem_append.1 hc).elim (hblank c) (hnames c)
    · exact hblank c hc
  have htake : (blanks ++ (nameList arguments).toList ++ blanks ++ closing :: rest).takeWhile
      (!closesBracket ·) = blanks ++ (nameList arguments).toList ++ blanks := by
    rw [List.takeWhile_append_of_pos hinside, List.takeWhile_cons, if_neg (by simp [hclosing]),
      List.append_nil]
  rw [listedNames, htext]
  simp only [hopening, if_true, htake]
  exact readItems_nameList h hne hblanks

/-- The names of the arguments are read from the signature, whatever style it has. -/
theorem listedNames_signature (h : ∀ a ∈ arguments, a.Named) (useOptions : Bool) :
    listedNames (signature arguments useOptions) = arguments.map (·.identifier) := by
  by_cases hempty : arguments = []
  · rw [hempty]
    rfl
  · cases useOptions with
    | true =>
        obtain ⟨rest, htext⟩ : ∃ rest, (signature arguments true).toList =
            '\x7b' :: ([' '] ++ (nameList arguments).toList ++ [' '] ++ '\x7d' :: rest) := by
          rw [signature, if_neg (by simpa using hempty), if_pos rfl, bindingPattern]
          simp only [String.toList_append, List.append_assoc]
          exact ⟨_, rfl⟩
        exact listedNames_bracketed h hempty (.inr rfl) (by decide) (by decide) htext
    | false =>
        obtain ⟨a, as, rfl⟩ := List.exists_cons_of_ne_nil hempty
        have hstart : StartsSmall (signature (a :: as) false) :=
          startsSmall_joinWith (startsSmall_typedName (h a List.mem_cons_self)) ", " _
        rw [listedNames_of_startsSmall hstart, readItems_signature h, List.map_map]
        rfl

/-- And from the arguments of a call. -/
theorem listedNames_callArguments (h : ∀ a ∈ arguments, a.Named) (useOptions : Bool) :
    listedNames (callArguments arguments useOptions) = arguments.map (·.identifier) := by
  by_cases hempty : arguments = []
  · rw [hempty]
    rfl
  · cases useOptions with
    | true =>
        have htext : (callArguments arguments true).toList =
            '\x7b' :: ([' '] ++ (nameList arguments).toList ++ [' '] ++ ['\x7d']) := by
          rw [callArguments, if_neg (by simpa using hempty), if_pos rfl, bindingPattern]
          simp only [String.toList_append, List.append_assoc]
          rfl
        exact listedNames_bracketed h hempty (.inr rfl) (by decide) (by decide) htext
    | false =>
        obtain ⟨a, as, rfl⟩ := List.exists_cons_of_ne_nil hempty
        have hread := readItems_nameList h hempty (.inl rfl)
        rw [List.nil_append, List.append_nil] at hread
        have hstart : StartsSmall (callArguments (a :: as) false) :=
          startsSmall_joinWith (h a List.mem_cons_self).start ", " _
        rw [listedNames_of_startsSmall hstart]
        exact hread

/-- And from the values that a hook depends on. -/
theorem listedNames_deps (h : ∀ a ∈ arguments, a.Named) :
    listedNames ("[" ++ nameList arguments ++ "]") = arguments.map (·.identifier) := by
  by_cases hempty : arguments = []
  · rw [hempty]
    rfl
  · have htext : ("[" ++ nameList arguments ++ "]").toList =
        '[' :: ([] ++ (nameList arguments).toList ++ [] ++ [']']) := by
      simp [String.toList_append]
    exact listedNames_bracketed h hempty (.inl rfl) (by decide) (by decide) htext

end Page

end TypedClient
