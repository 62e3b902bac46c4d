import TypedClient.Proofs.Script.TypeReader

/-!
# Strings and names in quotes

A string literal stays inside its quotes: it holds no line end, and every quote in it is escaped
(`staysQuoted_escape`). It is read back, too. The name of a property or of a member of an
enumeration is written bare if it is a name in the code as well, and as a string literal otherwise.
So nothing is lost in print, and different texts are printed differently (`literals_faithful`).
-/

namespace TypedClient.Script

open Naming (IsTypeName)

/-- Whether the character behind a text is escaped: the last backslash of the text starts an escape
sequence that goes on. -/
def escapesNext (cs : List Char) : Bool :=
  cs.foldl (fun escaped c => !escaped && c == '\\') false

/-- A text that can stand between single quotes. -/
structure StaysQuoted (cs : List Char) : Prop where
  noLineFeed : '\n' ∉ cs
  noReturn : '\r' ∉ cs
  /-- Every quote is escaped. -/
  quotes : ∀ before after, cs = before ++ '\'' :: after → escapesNext before = true

/-- The string that a text stands for, if the text is one literal between single quotes. -/
def unquote? (text : String) : Option String :=
  match text.toList with
  | '\'' :: cs =>
    match readQuoted cs with
    | some (value, []) => some (String.ofList value)
    | _ => none
  | _ => none

/-! ## String literals -/

section Quoted

variable {xs ys : List Char} {c : Char}

theorem escapesNext_append (h : escapesNext xs = false) (ys : List Char) :
    escapesNext (xs ++ ys) = escapesNext ys := by
  rw [escapesNext] at h
  rw [escapesNext, List.foldl_append, h, escapesNext]

namespace StaysQuoted

theorem nil : StaysQuoted [] := ⟨by simp, by simp, by simp⟩

/-- Behind a text that leaves no escape sequence open another one can follow. -/
theorem append (hxs : StaysQuoted xs) (hend : escapesNext xs = false) (hys : StaysQuoted ys) :
    StaysQuoted (xs ++ ys) where
  noLineFeed h := (List.mem_append.1 h).elim hxs.noLineFeed hys.noLineFeed
  noReturn h := (List.mem_append.1 h).elim hxs.noReturn hys.noReturn
  quotes before after heq := by
    rcases List.append_eq_append_iff.1 heq with ⟨front, rfl, htail⟩ | ⟨tail, rfl, htail⟩
    · rw [escapesNext_append hend]
      exact hys.quotes front after htail
    · cases tail with
      | nil =>
          have hfirst := hys.quotes [] after htail.symm
          exact absurd hfirst (by decide)
      | cons d tail =>
          obtain ⟨rfl, -⟩ := List.cons.inj htail
          exact hxs.quotes before tail rfl

/-- A character that means nothing in a string. -/
theorem singleton (hquote : c ≠ '\'') (hfeed : c ≠ '\n') (hreturn : c ≠ '\r') :
    StaysQuoted [c] where
  noLineFeed h := hfeed (List.mem_singleton.1 h).symm
  noReturn h := hreturn (List.mem_singleton.1 h).symm
  quotes before after heq := by
    cases before with
    | nil => exact absurd (List.cons.inj heq).1 hquote
    | cons d before => simp at heq

/-- An escape sequence, even that of a quote. -/
theorem escaped (hfeed : c ≠ '\n') (hreturn : c ≠ '\r') : StaysQuoted ['\\', c] where
  noLineFeed h := by simp [hfeed.symm] at h
  noReturn h := by simp [hreturn.symm] at h
  quotes before after heq := by
    cases before with
    | nil => exact absurd (List.cons.inj heq).1 (by decide)
    | cons d before =>
        obtain ⟨rfl, hrest⟩ := List.cons.inj heq
        cases before with
        | nil => rfl
        | cons e before => simp at hrest

end StaysQuoted

theorem staysQuoted_escapeChar (c : Char) :
    StaysQuoted (escapeChar c) ∧ escapesNext (escapeChar c) = false := by
  unfold escapeChar
  split
  · exact ⟨.escaped (by decide) (by decide), rfl⟩
  · exact ⟨.escaped (by decide) (by decide), rfl⟩
  · exact ⟨.escaped (by decide) (by decide), rfl⟩
  · exact ⟨.escaped (by decide) (by decide), rfl⟩
  · rename_i hslash hquote hfeed hreturn
    exact ⟨.singleton hquote hfeed hreturn, by simpa [escapesNext] using hslash⟩

/-- An escaped text can stand between quotes. -/
theorem staysQuoted_escape (s : String) : StaysQuoted (escape s).toList := by
  rw [escape, String.toList_ofList]
  induction s.toList with
  | nil => exact .nil
  | cons c cs ih =>
      obtain ⟨hfirst, hend⟩ := staysQuoted_escapeChar c
      exact hfirst.append hend ih

/-- A string literal is read back. -/
theorem unquote?_quoted (s : String) : unquote? (quoted s) = some s := by
  rw [unquote?, toList_quoted]
  simp only [readQuoted_escape, String.ofList_toList]

end Quoted

/-! ## Names -/

theorem isIdentifier_iff {name : String} : isIdentifier name = true ↔ IsTypeName name := by
  rw [isIdentifier, IsTypeName]
  cases name.toList with
  | nil => simp
  | cons c cs => simp [Bool.and_eq_true, List.all_eq_true]

/-- What can be read as a string literal starts with a quote, and is no name. -/
theorem not_isTypeName_of_unquote? {text value : String} (h : unquote? text = some value) :
    ¬ IsTypeName text := by
  rintro ⟨c, cs, htext, hstart, -⟩
  unfold unquote? at h
  split at h
  · rename_i hquote
    obtain ⟨rfl, -⟩ := List.cons.inj (htext.symm.trans hquote)
    exact absurd hstart (by decide)
  · cases h

/-- The name of a property is bare if it is a name in the code, and quoted otherwise. -/
theorem propertyKey_bare_or_quoted (name : String) :
    IsTypeName name ∧ propertyKey name = name ∨
      ¬ IsTypeName name ∧ unquote? (propertyKey name) = some name := by
  rw [← isIdentifier_iff, propertyKey]
  by_cases hname : isIdentifier name = true
  · exact .inl ⟨hname, if_pos hname⟩
  · rw [if_neg hname]
    exact .inr ⟨hname, unquote?_quoted name⟩

/-- Reserved words need no escapes. -/
theorem escape_of_mem_reservedWords : ∀ word ∈ Naming.reservedWords, escape word = word := by
  decide

/-- A reserved word is quoted as well where a member of an enumeration is named. -/
theorem memberKey_bare_or_quoted (name : String) :
    (IsTypeName name ∧ name ∉ Naming.reservedWords) ∧ memberKey name = name ∨
      ¬ (IsTypeName name ∧ name ∉ Naming.reservedWords) ∧
        unquote? (memberKey name) = some name := by
  rw [memberKey]
  by_cases hreserved : name ∈ Naming.reservedWords
  · have hquoted : "'" ++ name ++ "'" = quoted name := by
      rw [quoted, escape_of_mem_reservedWords name hreserved]
    rw [if_pos hreserved, hquoted]
    exact .inr ⟨fun h => h.2 hreserved, unquote?_quoted name⟩
  · rw [if_neg hreserved]
    rcases propertyKey_bare_or_quoted name with ⟨hname, hbare⟩ | ⟨hname, hread⟩
    · exact .inl ⟨⟨hname, hreserved⟩, hbare⟩
    · exact .inr ⟨fun h => hname h.1, hread⟩

/-- What is printed as a name or as a string literal can be told from what is printed for another
text. -/
theorem injective_of_bare_or_quoted {print : String → String}
    (h : ∀ name, IsTypeName name ∧ print name = name ∨ unquote? (print name) = some name) :
    Function.Injective print := by
  intro name other heq
  rcases h name with ⟨hname, hbare⟩ | hread <;> rcases h other with ⟨hother, hbare'⟩ | hread'
  case inl.inl => rw [← hbare, heq, hbare']
  case inl.inr =>
    rw [← heq, hbare] at hread'
    exact absurd hname (not_isTypeName_of_unquote? hread')
  case inr.inl =>
    rw [heq, hbare'] at hread
    exact absurd hother (not_isTypeName_of_unquote? hread)
  case inr.inr =>
    rw [heq, hread'] at hread
    exact (Option.some.inj hread).symm

/-! ## All of them -/

/-- A string is printed as a literal that stays inside its quotes and is read back. A property is
named as it is or by such a literal, and so is a member of an enumeration, which in addition is not
named by a reserved word as it is. Different texts are printed differently by each of the three. -/
theorem literals_faithful :
    (∀ s, (∃ body, literal (.string s) = "'" ++ body ++ "'" ∧ StaysQuoted body.toList) ∧
        unquote? (literal (.string s)) = some s) ∧
      (∀ name, IsTypeName name ∧ propertyKey name = name ∨
        ¬ IsTypeName name ∧ unquote? (propertyKey name) = some name) ∧
      (∀ name, (IsTypeName name ∧ name ∉ Naming.reservedWords) ∧ memberKey name = name ∨
        ¬ (IsTypeName name ∧ name ∉ Naming.reservedWords) ∧
          unquote? (memberKey name) = some name) ∧
      Function.Injective (fun s => literal (.string s)) ∧
      Function.Injective propertyKey ∧ Function.Injective memberKey := by
  refine ⟨fun s => ⟨⟨escape s, rfl, staysQuoted_escape s⟩, unquote?_quoted s⟩,
    propertyKey_bare_or_quoted, memberKey_bare_or_quoted, ?_, ?_, ?_⟩
  · exact injective_of_bare_or_quoted fun s => .inr (unquote?_quoted s)
  · exact injective_of_bare_or_quoted fun name =>
      (propertyKey_bare_or_quoted name).imp_right And.right
  · exact injective_of_bare_or_quoted fun name =>
      (memberKey_bare_or_quoted name).imp (And.imp_left And.left) And.right

/-- An odd number of backslashes escapes a quote, and an even number does not. -/
example : unquote? "'a\\\\\\'b'" = some "a\\'b" ∧ unquote? "'a\\\\'b'" = none := by decide

end TypedClient.Script
