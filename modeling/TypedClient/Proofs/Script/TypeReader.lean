import Mathlib.Data.List.Basic
import TypedClient.Proofs.Naming.Words
import TypedClient.Proofs.Script.Literal
import TypedClient.Proofs.Script.Type

/-!
# Reading types

`Ty.read?` reads a type from its text. Keywords are told from names, members of unions and of
intersections from each other, and literals from what stands around them. A type that is well
formed is read back from its text (`read?_text`), so that no text stands for two types.
-/

namespace TypedClient.Script

/-- The words that are no names of types. -/
def typeWords : List String :=
  Naming.reservedWords ++ TypeWord.all.map (·.text) ++
    ["never", "object", "symbol", "undefined", "unknown", "bigint"]

/-- The characters at the start that satisfy a condition, and what follows. -/
def readWhile (p : Char → Bool) (cs : List Char) : String × List Char :=
  (String.ofList (cs.takeWhile p), cs.dropWhile p)

/-- The character that an escape sequence stands for. -/
def unescape : Char → Option Char
  | '\\' => some '\\'
  | '\'' => some '\''
  | 'n' => some '\n'
  | 'r' => some '\r'
  | _ => none

/-- The characters of a string literal up to the closing quote, and what follows. -/
def readQuoted : List Char → Option (List Char × List Char)
  | [] | '\n' :: _ | '\r' :: _ => none
  | '\'' :: rest => some ([], rest)
  | '\\' :: c :: rest =>
    (unescape c).bind fun c => (readQuoted rest).map fun (cs, rest) => (c :: cs, rest)
  | c :: rest => (readQuoted rest).map fun (cs, rest) => (c :: cs, rest)

/-- The name of a property, and what follows. -/
def readKey : List Char → Option (String × List Char)
  | [] => none
  | c :: cs =>
    if c = '\'' then (readQuoted cs).map fun (key, rest) => (String.ofList key, rest)
    else if Naming.isNameStart c then some (readWhile Naming.isNameChar (c :: cs))
    else none

/-- What stands before the type of a property, and what follows. -/
def readHead (cs : List Char) : Option (PropertyHead × List Char) :=
  let afterModifier := "readonly ".toList.isPrefixOf? cs
  (readKey (afterModifier.getD cs)).bind fun (key, rest) =>
    let afterMark := "?".toList.isPrefixOf? rest
    (": ".toList.isPrefixOf? (afterMark.getD rest)).map fun rest =>
      (⟨afterModifier.isSome, key, afterMark.isNone⟩, rest)

/-- The type of a word by itself. -/
def wordType? (word : String) : Option Ty :=
  match TypeWord.all.find? (·.text == word) with
  | some w => some (.word w)
  | none =>
    if word = "true" then some (.flag true)
    else if word = "false" then some (.flag false)
    else if isIdentifier word && !decide (word ∈ typeWords) then some (.name word)
    else none

namespace Ty

mutual

/-- A type at the start of a text, and what follows. Every step takes at least one character, so
that the length of the text is enough of a bound. -/
def readTy : Nat → List Char → Option (Ty × List Char)
  | 0, _ | _, [] => none
  | bound + 1, c :: cs =>
    if c = '\'' then (readQuoted cs).map fun (s, rest) => (.string (String.ofList s), rest)
    else if c = '(' then
      (readTy bound cs).bind fun (first, rest) =>
        match " | ".toList.isPrefixOf? rest with
        | some rest =>
          (readMembers bound " | ".toList rest).map fun (others, rest) =>
            (.union (first :: others), rest)
        | none =>
          (" & ".toList.isPrefixOf? rest).bind fun rest =>
            (readMembers bound " & ".toList rest).map fun (others, rest) =>
              (.intersection (first :: others), rest)
    else if c = '\x7b' then
      ("\n".toList.isPrefixOf? cs).bind fun rest =>
        (readLines bound rest).map fun (properties, rest) => (.object properties, rest)
    else if c.isDigit || c == '-' then
      let (taken, rest) := readWhile Decimal.isNumeralChar (c :: cs)
      some (.numeral taken, rest)
    else
      let (taken, rest) := readWhile Naming.isNameChar (c :: cs)
      match "<".toList.isPrefixOf? rest with
      | none => (wordType? taken).map fun type => (type, rest)
      | some inner =>
        if taken = "Array" then
          (readTy bound inner).bind fun (item, rest) =>
            (">".toList.isPrefixOf? rest).map fun rest => (.array item, rest)
        else if taken = "Record" then
          ("string, ".toList.isPrefixOf? inner).bind fun inner =>
            (readTy bound inner).bind fun (value, rest) =>
              (">".toList.isPrefixOf? rest).map fun rest => (.record value, rest)
        else none

/-- The members behind the first one up to the parenthesis, and what follows. -/
def readMembers : Nat → List Char → List Char → Option (List Ty × List Char)
  | 0, _, _ => none
  | bound + 1, separator, cs =>
    (readTy bound cs).bind fun (member, rest) =>
      match ")".toList.isPrefixOf? rest with
      | some rest => some ([member], rest)
      | none =>
        (separator.isPrefixOf? rest).bind fun rest =>
          (readMembers bound separator rest).map fun (others, rest) => (member :: others, rest)

/-- The lines of an object type up to the brace, and what follows. -/
def readLines : Nat → List Char → Option (List (PropertyHead × Ty) × List Char)
  | 0, _ => none
  | bound + 1, cs =>
    (readHead cs).bind fun (head, rest) =>
      (readTy bound rest).bind fun (type, rest) =>
        (";\n".toList.isPrefixOf? rest).bind fun rest =>
          match "\x7d".toList.isPrefixOf? rest with
          | some rest => some ([(head, type)], rest)
          | none =>
            (readLines bound rest).map fun (others, rest) => ((head, type) :: others, rest)

end

/-- The type that a text stands for. -/
def read? (text : String) : Option Ty :=
  match readTy (text.length + 1) text.toList with
  | some (type, []) => some type
  | _ => none

mutual

/-- Names and numerals are such, and unions, intersections and object types have enough members. -/
def WellFormed : Ty → Prop
  | .word _ | .string _ | .flag _ => True
  | .name n => isIdentifier n = true ∧ n ∉ typeWords
  | .numeral t => Decimal.IsNumeral t.toList
  | .array item => WellFormed item
  | .record value => WellFormed value
  | .object properties => properties ≠ [] ∧ WellFormedLines properties
  | .union members => 2 ≤ members.length ∧ WellFormedAll members
  | .intersection members => 2 ≤ members.length ∧ WellFormedAll members

/-- The types of some properties are well formed. -/
def WellFormedLines : List (PropertyHead × Ty) → Prop
  | [] => True
  | (_, type) :: rest => WellFormed type ∧ WellFormedLines rest

/-- Some types are well formed. -/
def WellFormedAll : List Ty → Prop
  | [] => True
  | type :: rest => WellFormed type ∧ WellFormedAll rest

end

end Ty

/-! ## Texts in front of others -/

variable {cs rest : List Char}

theorem isPrefixOf?_append (cs rest : List Char) : cs.isPrefixOf? (cs ++ rest) = some rest :=
  List.isPrefixOf?_eq_some_iff_append_eq.2 rfl

/-- What can stand behind a type: it does not go on with what the type is made of. -/
def Ends (rest : List Char) : Prop := ∀ c ∈ rest.head?, c ∈ [' ', ')', '>', ';']

theorem ends_nil : Ends [] := by simp [Ends]

theorem ends_cons {c : Char} (h : c ∈ [' ', ')', '>', ';']) : Ends (c :: rest) := by
  simpa [Ends] using h

theorem readWhile_append {p : Char → Bool} (hcs : ∀ c ∈ cs, p c = true)
    (hrest : ∀ c ∈ rest.head?, p c = false) :
    readWhile p (cs ++ rest) = (String.ofList cs, rest) := by
  have hdrop : rest.takeWhile p = [] ∧ rest.dropWhile p = rest := by
    cases rest with
    | nil => simp
    | cons c rest => simp [hrest c rfl]
  rw [readWhile, List.takeWhile_append_of_pos hcs, List.dropWhile_append_of_pos hcs, hdrop.1,
    hdrop.2, List.append_nil]

theorem Ends.not {p : Char → Bool} (h : Ends rest) (hp : [' ', ')', '>', ';'].all (!p ·) = true) :
    ∀ c ∈ rest.head?, p c = false := fun c hc => by
  simpa using List.all_eq_true.1 hp c (h c hc)

theorem Ends.isPrefixOf?_eq_none (h : Ends rest) {c : Char} (hc : c ∉ [' ', ')', '>', ';']) :
    [c].isPrefixOf? rest = none := by
  cases rest with
  | nil => rfl
  | cons d rest =>
      have hne : c ≠ d := ne_of_mem_of_not_mem (h d rfl) hc |>.symm
      simp [List.isPrefixOf?, hne]

/-! ## Strings and names -/

theorem readQuoted_escapeChar (c : Char) :
    readQuoted (escapeChar c ++ rest) = (readQuoted rest).map fun (cs, rest) => (c :: cs, rest) := by
  unfold escapeChar
  split
  · rfl
  · rfl
  · rfl
  · rfl
  · rename_i hslash hquote hfeed hreturn
    change readQuoted (c :: rest) = _
    rw [readQuoted.eq_def]
    split <;> simp_all

/-- A string literal is read back. -/
theorem readQuoted_escape (cs rest : List Char) :
    readQuoted (cs.flatMap escapeChar ++ '\'' :: rest) = some (cs, rest) := by
  induction cs with
  | nil => rfl
  | cons c cs ih => rw [List.flatMap_cons, List.append_assoc, readQuoted_escapeChar, ih]; rfl

theorem toList_quoted (s : String) :
    (quoted s).toList = '\'' :: (s.toList.flatMap escapeChar ++ ['\'']) := by
  simp [quoted, escape]

theorem exists_of_isIdentifier {name : String} (h : isIdentifier name = true) :
    ∃ c cs, name.toList = c :: cs ∧ Naming.isNameStart c = true := by
  unfold isIdentifier at h
  split at h
  · cases h
  · rename_i c cs hname
    exact ⟨c, cs, hname, (Bool.and_eq_true_iff.1 h).1⟩

/-- A name starts with no digit. -/
theorem isDigit_of_isNameStart {c : Char} (h : Naming.isNameStart c = true) : c.isDigit = false :=
  Text.forall_ascii (P := fun c => Naming.isNameStart c = true → c.isDigit = false)
    (by decide) (Naming.toNat_lt_of_isNameChar (Naming.isNameChar_of_isNameStart h)) h

/-- A name starts like nothing else. -/
theorem ne_of_isNameStart {c : Char} (h : Naming.isNameStart c = true) :
    c ≠ '\'' ∧ c ≠ '(' ∧ c ≠ '\x7b' ∧ (c.isDigit || c == '-') = false := by
  refine ⟨?_, ?_, ?_, ?_⟩
  · rintro rfl
    exact absurd h (by decide)
  · rintro rfl
    exact absurd h (by decide)
  · rintro rfl
    exact absurd h (by decide)
  · rw [isDigit_of_isNameStart h, Bool.false_or, beq_eq_false_iff_ne]
    rintro rfl
    exact absurd h (by decide)

theorem readWhile_name {name : String} (h : isIdentifier name = true)
    (hrest : ∀ c ∈ rest.head?, Naming.isNameChar c = false) :
    readWhile Naming.isNameChar (name.toList ++ rest) = (name, rest) := by
  rw [readWhile_append (Lexer.isNameChar_of_isIdentifier h) hrest, String.ofList_toList]

/-- The name of a property is read back. -/
theorem readKey_propertyKey (name : String)
    (hrest : ∀ c ∈ rest.head?, Naming.isNameChar c = false) :
    readKey ((propertyKey name).toList ++ rest) = some (name, rest) := by
  unfold propertyKey
  split
  · rename_i hname
    obtain ⟨c, cs, hcs, hstart⟩ := exists_of_isIdentifier hname
    have hread := readWhile_name hname hrest
    rw [hcs, List.cons_append] at hread ⊢
    rw [readKey, if_neg (ne_of_isNameStart hstart).1, if_pos hstart, hread]
  · rw [toList_quoted, List.cons_append, readKey, if_pos rfl, List.append_assoc,
      List.singleton_append, readQuoted_escape]
    simp

/-- The name of a property is not taken for a modifier. -/
theorem isPrefixOf?_readonly (name : String) {c : Char} (hc : Naming.isNameChar c = false)
    (hspace : c ≠ ' ') :
    "readonly ".toList.isPrefixOf? ((propertyKey name).toList ++ c :: rest) = none := by
  rw [Option.eq_none_iff_forall_ne_some]
  intro after hafter
  have heq := List.isPrefixOf?_eq_some_iff_append_eq.1 hafter
  unfold propertyKey at heq
  split at heq
  · rename_i hname
    have hspaceEnds : ∀ d ∈ (' ' :: after).head?, Naming.isNameChar d = false := by
      rintro _ ⟨⟩
      decide
    have hends : ∀ d ∈ (c :: rest).head?, Naming.isNameChar d = false := by
      rintro _ ⟨⟩
      exact hc
    have hleft : readWhile Naming.isNameChar ("readonly".toList ++ ' ' :: after) =
        ("readonly", ' ' :: after) := readWhile_name (by decide) hspaceEnds
    have hright := readWhile_name hname hends
    rw [← heq] at hright
    have hboth := hleft.symm.trans hright
    rw [Prod.mk.injEq, List.cons.injEq] at hboth
    exact hspace hboth.2.1.symm
  · rw [toList_quoted] at heq
    exact absurd (List.cons.inj heq).1 (by decide)

/-- What stands before the type of a property is read back. -/
theorem readHead_text (head : PropertyHead) (rest : List Char) :
    readHead (head.text.toList ++ rest) = some (head, rest) := by
  obtain ⟨isReadOnly, key, isRequired⟩ := head
  let after := (if isRequired then "" else "?").toList ++ (": ".toList ++ rest)
  have hsplit : (PropertyHead.mk isReadOnly key isRequired).text.toList ++ rest =
      (if isReadOnly then "readonly " else "").toList ++ ((propertyKey key).toList ++ after) := by
    simp only [PropertyHead.text, String.toList_append, List.append_assoc, after]
  obtain ⟨c, others, hafter, hname, hspace⟩ :
      ∃ c others, after = c :: others ∧ Naming.isNameChar c = false ∧ c ≠ ' ' := by
    cases isRequired
    · exact ⟨'?', _, rfl, by decide, by decide⟩
    · exact ⟨':', _, rfl, by decide, by decide⟩
  have hkey : readKey ((propertyKey key).toList ++ after) = some (key, after) := by
    refine readKey_propertyKey key ?_
    rw [hafter]
    rintro _ ⟨⟩
    exact hname
  have hmodifier : ("readonly ".toList.isPrefixOf?
      ((if isReadOnly then "readonly " else "").toList ++
        ((propertyKey key).toList ++ after))) =
      if isReadOnly then some ((propertyKey key).toList ++ after) else none := by
    cases isReadOnly
    · rw [hafter]
      exact isPrefixOf?_readonly key hname hspace
    · exact isPrefixOf?_append _ _
  have hmark : "?".toList.isPrefixOf? after =
      if isRequired then none else some (": ".toList ++ rest) := by
    cases isRequired
    · exact isPrefixOf?_append _ _
    · rfl
  have hcolon : ": ".toList.isPrefixOf?
      ((if isRequired then none else some (": ".toList ++ rest)).getD after) = some rest := by
    cases isRequired <;> exact isPrefixOf?_append _ _
  unfold readHead
  rw [hsplit, hmodifier]
  have hrest : (if isReadOnly then some ((propertyKey key).toList ++ after) else none).getD
      ((if isReadOnly then "readonly " else "").toList ++ ((propertyKey key).toList ++ after)) =
      (propertyKey key).toList ++ after := by cases isReadOnly <;> rfl
  dsimp only
  rw [hrest, hkey, Option.bind_some]
  dsimp only
  rw [hmark, hcolon]
  cases isReadOnly <;> cases isRequired <;> rfl

/-! ## Types -/

namespace Ty

theorem wordType?_text (w : TypeWord) : wordType? w.text = some (.word w) := by
  cases w <;> rfl

theorem wordType?_flag (b : Bool) : wordType? (if b then "true" else "false") = some (.flag b) := by
  cases b <;> rfl

theorem wordType?_name {name : String} (hname : isIdentifier name = true)
    (hword : name ∉ typeWords) : wordType? name = some (.name name) := by
  have htypes : TypeWord.all.find? (·.text == name) = none := by
    rw [List.find?_eq_none]
    intro w hw htext
    rw [beq_iff_eq] at htext
    refine hword ?_
    rw [typeWords, ← htext]
    exact List.mem_append_left _ (List.mem_append_right _ (List.mem_map_of_mem hw))
  have htrue : name ≠ "true" := by
    rintro rfl
    exact hword (by decide)
  have hfalse : name ≠ "false" := by
    rintro rfl
    exact hword (by decide)
  simp [wordType?, htypes, htrue, hfalse, hname, hword]

/-- A name at the start of a text is read up to its end. -/
theorem readTy_identifier {name : String} (hname : isIdentifier name = true)
    (hrest : ∀ c ∈ rest.head?, Naming.isNameChar c = false) (bound : ℕ) :
    readTy (bound + 1) (name.toList ++ rest) =
      match "<".toList.isPrefixOf? rest with
      | none => (wordType? name).map fun type => (type, rest)
      | some inner =>
        if name = "Array" then
          (readTy bound inner).bind fun (item, rest) =>
            (">".toList.isPrefixOf? rest).map fun rest => (.array item, rest)
        else if name = "Record" then
          ("string, ".toList.isPrefixOf? inner).bind fun inner =>
            (readTy bound inner).bind fun (value, rest) =>
              (">".toList.isPrefixOf? rest).map fun rest => (.record value, rest)
        else none := by
  obtain ⟨c, cs, hcs, hstart⟩ := exists_of_isIdentifier hname
  obtain ⟨hquote, hparen, hbrace, hnumeral⟩ := ne_of_isNameStart hstart
  have hread := readWhile_name hname hrest
  rw [hcs, List.cons_append] at hread ⊢
  rw [readTy, if_neg hquote, if_neg hparen, if_neg hbrace, if_neg (by rw [hnumeral]; decide), hread]

/-- A word that nothing belongs to is a type by itself. -/
theorem readTy_word {word : String} {type : Ty} (hword : isIdentifier word = true)
    (htype : wordType? word = some type) (hrest : Ends rest) (bound : ℕ) :
    readTy (bound + 1) (word.toList ++ rest) = some (type, rest) := by
  have hbracket : "<".toList.isPrefixOf? rest = none := hrest.isPrefixOf?_eq_none (by decide)
  rw [readTy_identifier hword (hrest.not (by decide)), hbracket, htype, Option.map_some]

theorem readTy_numeral {text : String} (h : Decimal.IsNumeral text.toList) (hrest : Ends rest)
    (bound : ℕ) : readTy (bound + 1) (text.toList ++ rest) = some (.numeral text, rest) := by
  have hread : readWhile Decimal.isNumeralChar (text.toList ++ rest) = (text, rest) := by
    rw [readWhile_append h.isNumeralChar (hrest.not (by decide)), String.ofList_toList]
  obtain ⟨c, cs, hcs, hc⟩ : ∃ c cs, text.toList = c :: cs ∧ (c.isDigit || c == '-') = true := by
    rcases h with ⟨c, cs, hcs, hc, -⟩ | ⟨cs, hcs, -⟩
    · exact ⟨c, cs, hcs, by simp [hc]⟩
    · exact ⟨'-', cs, hcs, by decide⟩
  have hne : c ≠ '\'' ∧ c ≠ '(' ∧ c ≠ '\x7b' := by
    refine ⟨?_, ?_, ?_⟩ <;> rintro rfl <;> exact absurd hc (by decide)
  rw [hcs, List.cons_append] at hread ⊢
  rw [readTy, if_neg hne.1, if_neg hne.2.1, if_neg hne.2.2, if_pos hc, hread]

theorem readTy_quoted (s : String) (rest : List Char) (bound : ℕ) :
    readTy (bound + 1) ((quoted s).toList ++ rest) = some (.string s, rest) := by
  rw [toList_quoted, List.cons_append, readTy, if_pos rfl, List.append_assoc,
    List.singleton_append, readQuoted_escape]
  simp

/-- A name in front of a bracket. -/
theorem readTy_bracket {name : String} (hname : isIdentifier name = true) (bound : ℕ)
    (inner : List Char) :
    readTy (bound + 1) (name.toList ++ '<' :: inner) =
      if name = "Array" then
        (readTy bound inner).bind fun (item, rest) =>
          (">".toList.isPrefixOf? rest).map fun rest => (.array item, rest)
      else if name = "Record" then
        ("string, ".toList.isPrefixOf? inner).bind fun inner =>
          (readTy bound inner).bind fun (value, rest) =>
            (">".toList.isPrefixOf? rest).map fun rest => (.record value, rest)
      else none := by
  have hends : ∀ c ∈ ('<' :: inner).head?, Naming.isNameChar c = false := by
    rintro _ ⟨⟩
    decide
  exact readTy_identifier hname hends bound

theorem readTy_array {bound : ℕ} {item : Ty} {inner : List Char}
    (h : readTy bound inner = some (item, '>' :: rest)) :
    readTy (bound + 1) ("Array<".toList ++ inner) = some (.array item, rest) := by
  have hsplit : "Array<".toList = "Array".toList ++ ['<'] := by decide
  rw [hsplit, List.append_assoc, List.singleton_append, readTy_bracket (by decide), if_pos rfl, h]
  rfl

theorem readTy_record {bound : ℕ} {value : Ty} {inner : List Char}
    (h : readTy bound inner = some (value, '>' :: rest)) :
    readTy (bound + 1) ("Record<string, ".toList ++ inner) = some (.record value, rest) := by
  have hsplit : "Record<string, ".toList = "Record".toList ++ '<' :: "string, ".toList := by decide
  have hne : "Record" ≠ "Array" := by decide
  rw [hsplit, List.append_assoc, List.cons_append, readTy_bracket (by decide), if_neg hne,
    if_pos rfl, isPrefixOf?_append, Option.bind_some, h]
  rfl

theorem readTy_object {bound : ℕ} {properties : List (PropertyHead × Ty)} {inner : List Char}
    (h : readLines bound inner = some (properties, rest)) :
    readTy (bound + 1) ("\x7b\n".toList ++ inner) = some (.object properties, rest) := by
  change readTy (bound + 1) ('\x7b' :: ("\n".toList ++ inner)) = _
  rw [readTy, if_neg (by decide), if_neg (by decide), if_pos rfl, isPrefixOf?_append,
    Option.bind_some, h]
  rfl

theorem readTy_union {bound : ℕ} {first : Ty} {others : List Ty} {inner after : List Char}
    (hfirst : readTy bound inner = some (first, " | ".toList ++ after))
    (hothers : readMembers bound " | ".toList after = some (others, rest)) :
    readTy (bound + 1) ('(' :: inner) = some (.union (first :: others), rest) := by
  rw [readTy, if_neg (by decide), if_pos rfl, hfirst, Option.bind_some]
  dsimp only
  rw [isPrefixOf?_append]
  dsimp only
  rw [hothers]
  rfl

theorem readTy_intersection {bound : ℕ} {first : Ty} {others : List Ty} {inner after : List Char}
    (hfirst : readTy bound inner = some (first, " & ".toList ++ after))
    (hothers : readMembers bound " & ".toList after = some (others, rest)) :
    readTy (bound + 1) ('(' :: inner) = some (.intersection (first :: others), rest) := by
  have hbar : " | ".toList.isPrefixOf? (" & ".toList ++ after) = none := rfl
  rw [readTy, if_neg (by decide), if_pos rfl, hfirst, Option.bind_some]
  dsimp only
  rw [hbar, isPrefixOf?_append, Option.bind_some, hothers]
  rfl

/-! ## The whole -/

/-- The separators of members. -/
def separators : List String := [" | ", " & "]

theorem exists_of_mem_separators {separator : String} (h : separator ∈ separators) :
    ∃ cs, separator.toList = ' ' :: cs := by
  have hall : ∀ s ∈ separators, s.toList.head? = some ' ' := by decide
  exact List.head?_eq_some_iff.1 (hall separator h)

theorem toList_joinWith (separator : String) (type next : Ty) (others : List Ty) :
    (Json.joinWith separator (texts (type :: next :: others))).toList =
      type.text.toList ++
        (separator.toList ++ (Json.joinWith separator (texts (next :: others))).toList) := by
  rw [texts, texts, Json.joinWith, String.toList_append, String.toList_append, List.append_assoc]
  simp

theorem toList_lines (head : PropertyHead) (type : Ty) (others : List (PropertyHead × Ty)) :
    (Text.concat (lines ((head, type) :: others))).toList =
      head.text.toList ++
        (type.text.toList ++ (";\n".toList ++ (Text.concat (lines others)).toList)) := by
  rw [lines, Text.concat, List.foldr_cons]
  simp only [String.toList_append, List.append_assoc]
  rfl

/-- A line does not start with the brace that ends an object type. -/
theorem isPrefixOf?_brace (head : PropertyHead) (rest : List Char) :
    "\x7d".toList.isPrefixOf? (head.text.toList ++ rest) = none := by
  rw [Option.eq_none_iff_forall_ne_some]
  intro after hafter
  have hread := readHead_text head rest
  rw [← List.isPrefixOf?_eq_some_iff_append_eq.1 hafter] at hread
  cases hread

/-- What stands inside a text is shorter than the text. -/
theorem length_lt_of_append {xs ys zs : List Char} {bound : ℕ}
    (h : (xs ++ (ys ++ zs)).length < bound + 1) (hxs : xs ≠ []) : ys.length < bound := by
  have hpos := List.length_pos_iff.2 hxs
  rw [List.length_append, List.length_append] at h
  omega

theorem wellFormedAll_iff {types : List Ty} :
    WellFormedAll types ↔ ∀ type ∈ types, WellFormed type := by
  induction types with
  | nil => simp [WellFormedAll]
  | cons type rest ih => simp [WellFormedAll, ih]

theorem wellFormedLines_iff {properties : List (PropertyHead × Ty)} :
    WellFormedLines properties ↔ ∀ property ∈ properties, WellFormed property.2 := by
  induction properties with
  | nil => simp [WellFormedLines]
  | cons property rest ih => simp [WellFormedLines, ih]

/-- The type is read back where nothing goes on with it. -/
def ReadsBack (type : Ty) : Prop :=
  ∀ (bound : ℕ) (rest : List Char), type.text.toList.length < bound → Ends rest →
    readTy bound (type.text.toList ++ rest) = some (type, rest)

/-- The members behind the first one are read back. -/
theorem readMembers_texts {separator : String} (hseparator : separator ∈ separators)
    {types : List Ty} (hne : types ≠ []) (h : ∀ type ∈ types, ReadsBack type) {bound : ℕ}
    (hbound : (Json.joinWith separator (texts types)).toList.length + 1 < bound)
    (rest : List Char) :
    readMembers bound separator.toList
      ((Json.joinWith separator (texts types)).toList ++ ')' :: rest) = some (types, rest) := by
  obtain ⟨cs, hcs⟩ := exists_of_mem_separators hseparator
  induction types generalizing bound with
  | nil => exact absurd rfl hne
  | cons type others ih =>
      obtain ⟨bound, rfl⟩ := Nat.exists_eq_add_one.2 (Nat.zero_lt_of_lt hbound)
      have htype := h type List.mem_cons_self bound
      cases others with
      | nil =>
          have hread := htype (')' :: rest) (Nat.lt_of_succ_lt_succ hbound) (ends_cons (by decide))
          change readMembers (bound + 1) separator.toList (type.text.toList ++ ')' :: rest) = _
          rw [readMembers, hread, Option.bind_some]
          rfl
      | cons next others =>
          have hlength : 0 < separator.toList.length := by rw [hcs]; exact Nat.succ_pos _
          rw [toList_joinWith] at hbound ⊢
          simp only [List.length_append] at hbound
          simp only [List.append_assoc]
          generalize hjoined : (Json.joinWith separator (texts (next :: others))).toList = joined
            at hbound ih ⊢
          have hends : Ends (separator.toList ++ (joined ++ ')' :: rest)) := by
            rw [hcs]
            exact ends_cons (by decide)
          have hparen : ")".toList.isPrefixOf? (separator.toList ++ (joined ++ ')' :: rest)) =
              none := by
            rw [hcs]
            rfl
          have hothers := ih (by simp) (fun other hother => h other (List.mem_cons_of_mem _ hother))
            (show joined.length + 1 < bound by omega)
          rw [readMembers, htype _ (by omega) hends, Option.bind_some]
          dsimp only
          rw [hparen, isPrefixOf?_append, Option.bind_some, hothers]
          rfl

/-- The lines of an object type are read back. -/
theorem readLines_lines {properties : List (PropertyHead × Ty)} (hne : properties ≠ [])
    (h : ∀ property ∈ properties, ReadsBack property.2) {bound : ℕ}
    (hbound : (Text.concat (lines properties)).toList.length < bound) (rest : List Char) :
    readLines bound ((Text.concat (lines properties)).toList ++ '\x7d' :: rest) =
      some (properties, rest) := by
  induction properties generalizing bound with
  | nil => exact absurd rfl hne
  | cons property others ih =>
      obtain ⟨head, type⟩ := property
      obtain ⟨bound, rfl⟩ := Nat.exists_eq_add_one.2 (Nat.zero_lt_of_lt hbound)
      have hend : 0 < ";\n".toList.length := by decide
      rw [toList_lines] at hbound ⊢
      simp only [List.length_append] at hbound
      simp only [List.append_assoc]
      have htype := h (head, type) List.mem_cons_self bound (";\n".toList ++
        ((Text.concat (lines others)).toList ++ '\x7d' :: rest)) (by dsimp only; omega)
        (ends_cons (by decide))
      rw [readLines, readHead_text, Option.bind_some]
      dsimp only at htype ⊢
      rw [htype, Option.bind_some]
      dsimp only
      rw [isPrefixOf?_append, Option.bind_some]
      cases others with
      | nil => rfl
      | cons next others =>
          have hlength : (Text.concat (lines (next :: others))).toList.length < bound := by omega
          have hothers := ih (by simp) (fun other hother => h other (List.mem_cons_of_mem _ hother))
            hlength
          have hbrace : "\x7d".toList.isPrefixOf?
              ((Text.concat (lines (next :: others))).toList ++ '\x7d' :: rest) = none := by
            rw [toList_lines, List.append_assoc]
            exact isPrefixOf?_brace next.1 _
          rw [hbrace]
          dsimp only
          rw [hothers]
          rfl

theorem exists_of_two_le_length {types : List Ty} (h : 2 ≤ types.length) :
    ∃ first next others, types = first :: next :: others := by
  match types, h with
  | first :: next :: others, _ => exact ⟨first, next, others, rfl⟩

/-- Unions and intersections are read back. -/
theorem readsBack_composed {separator : String} (hseparator : separator ∈ separators)
    (compose : List Ty → Ty)
    (htext : ∀ types,
      (compose types).text = "(" ++ Json.joinWith separator (texts types) ++ ")")
    (hread : ∀ {bound : ℕ} {first : Ty} {others : List Ty} {inner after rest : List Char},
      readTy bound inner = some (first, separator.toList ++ after) →
        readMembers bound separator.toList after = some (others, rest) →
          readTy (bound + 1) ('(' :: inner) = some (compose (first :: others), rest))
    {types : List Ty} (hlength : 2 ≤ types.length) (h : ∀ type ∈ types, ReadsBack type) :
    ReadsBack (compose types) := by
  intro bound rest hbound _
  obtain ⟨bound, rfl⟩ := Nat.exists_eq_add_one.2 (Nat.zero_lt_of_lt hbound)
  obtain ⟨first, next, others, rfl⟩ := exists_of_two_le_length hlength
  obtain ⟨cs, hcs⟩ := exists_of_mem_separators hseparator
  have hothers := fun other hother => h other (List.mem_cons_of_mem _ hother)
  have hparens : "(".toList = ['('] ∧ ")".toList = [')'] := by decide
  have hpos : 0 < separator.toList.length := by rw [hcs]; exact Nat.succ_pos _
  rw [htext, String.toList_append, String.toList_append, toList_joinWith, hparens.1, hparens.2]
    at hbound ⊢
  simp only [List.append_assoc, List.length_append, List.length_singleton] at hbound ⊢
  have hends : Ends (separator.toList ++
      ((Json.joinWith separator (texts (next :: others))).toList ++ ([')'] ++ rest))) := by
    rw [hcs]
    exact ends_cons (by decide)
  exact hread (h first List.mem_cons_self bound _ (by omega) hends)
    (readMembers_texts hseparator (by simp) hothers (by omega) rest)

/-- A well-formed type is read back where nothing goes on with it. -/
theorem readsBack {type : Ty} : type.WellFormed → ReadsBack type := by
  induction type using induction with
  | word w =>
      intro _ bound rest hbound hrest
      obtain ⟨bound, rfl⟩ := Nat.exists_eq_add_one.2 (Nat.zero_lt_of_lt hbound)
      exact readTy_word (by cases w <;> decide) (wordType?_text w) hrest bound
  | name n =>
      intro h bound rest hbound hrest
      obtain ⟨bound, rfl⟩ := Nat.exists_eq_add_one.2 (Nat.zero_lt_of_lt hbound)
      exact readTy_word h.1 (wordType?_name h.1 h.2) hrest bound
  | flag b =>
      intro _ bound rest hbound hrest
      obtain ⟨bound, rfl⟩ := Nat.exists_eq_add_one.2 (Nat.zero_lt_of_lt hbound)
      exact readTy_word (by cases b <;> decide) (wordType?_flag b) hrest bound
  | string s =>
      intro _ bound rest hbound _
      obtain ⟨bound, rfl⟩ := Nat.exists_eq_add_one.2 (Nat.zero_lt_of_lt hbound)
      exact readTy_quoted s rest bound
  | numeral t =>
      intro h bound rest hbound hrest
      obtain ⟨bound, rfl⟩ := Nat.exists_eq_add_one.2 (Nat.zero_lt_of_lt hbound)
      exact readTy_numeral h hrest bound
  | array item ih =>
      intro h bound rest hbound _
      obtain ⟨bound, rfl⟩ := Nat.exists_eq_add_one.2 (Nat.zero_lt_of_lt hbound)
      rw [text_array, String.toList_append, String.toList_append, List.append_assoc] at hbound ⊢
      rw [List.append_assoc]
      have hitem := length_lt_of_append hbound (by decide)
      exact readTy_array (ih h _ _ hitem (ends_cons (by decide)))
  | record value ih =>
      intro h bound rest hbound _
      obtain ⟨bound, rfl⟩ := Nat.exists_eq_add_one.2 (Nat.zero_lt_of_lt hbound)
      rw [text_record, String.toList_append, String.toList_append, List.append_assoc] at hbound ⊢
      rw [List.append_assoc]
      have hvalue := length_lt_of_append hbound (by decide)
      exact readTy_record (ih h _ _ hvalue (ends_cons (by decide)))
  | object properties ih =>
      intro h bound rest hbound _
      obtain ⟨bound, rfl⟩ := Nat.exists_eq_add_one.2 (Nat.zero_lt_of_lt hbound)
      rw [text_object, String.toList_append, String.toList_append, List.append_assoc] at hbound ⊢
      rw [List.append_assoc]
      have hlines := length_lt_of_append hbound (by decide)
      have hproperties : ∀ property ∈ properties, ReadsBack property.2 := fun property hproperty =>
        ih property hproperty (wellFormedLines_iff.1 h.2 property hproperty)
      exact readTy_object (readLines_lines h.1 hproperties hlines rest)
  | union members ih =>
      intro h
      refine readsBack_composed (by decide) .union (fun _ => rfl) readTy_union h.1 ?_
      exact fun member hmember => ih member hmember (wellFormedAll_iff.1 h.2 member hmember)
  | intersection members ih =>
      intro h
      refine readsBack_composed (by decide) .intersection (fun _ => rfl) readTy_intersection h.1 ?_
      exact fun member hmember => ih member hmember (wellFormedAll_iff.1 h.2 member hmember)

/-- A well-formed type is read back from its text. -/
theorem read?_text {type : Ty} (h : type.WellFormed) : read? type.text = some type := by
  have hlength : type.text.toList.length < type.text.length + 1 := by
    rw [String.length_toList]
    exact Nat.lt_succ_self _
  have hread := readsBack h (type.text.length + 1) [] hlength ends_nil
  rw [List.append_nil] at hread
  rw [read?, hread]

end Ty

end TypedClient.Script
