import TypedClient.Proofs.Decimal.Text
import TypedClient.Proofs.Naming.TypeName
import TypedClient.Proofs.Script.Code

/-!
# Literals without specifiers

Numbers are made of harmless characters, and strings keep what they hold between their quotes. So
JSON values, literals and property names can be written wherever the code is calm
(`passes_compact`, `passes_literal`, `passes_propertyKey`), whatever they are.
-/

namespace TypedClient.Script.Lexer

/-! ## Lists -/

/-- Texts between separators that lead back to where a text may start. -/
theorem passes_joinWith {P Q : Lexer → Prop} (hPQ : ∀ q, P q → Q q) {separator : String}
    (hseparator : Passes Q P separator.toList) {texts : List String}
    (h : ∀ text ∈ texts, Passes P Q text.toList) :
    Passes P Q (Json.joinWith separator texts).toList := by
  induction texts with
  | nil => exact .nil hPQ
  | cons text rest ih =>
      have htext := h text List.mem_cons_self
      cases rest with
      | nil => exact htext
      | cons next others =>
          have hrest := ih fun other hother => h other (List.mem_cons_of_mem _ hother)
          rw [Json.joinWith, String.toList_append, String.toList_append]
          · exact (htext.append hseparator).append hrest
          · simp

/-! ## Numbers -/

theorem isHarmless_of_isNumeralChar {c : Char} (h : Decimal.isNumeralChar c = true) :
    isHarmless c = true := by
  simp only [Decimal.isNumeralChar, Bool.or_eq_true, decide_eq_true_eq] at h
  rcases h with h | h
  · exact isHarmless_of_isNameChar (by simp [Naming.isNameChar, Char.isAlphanum, h])
  · have hall : ['.', '-', '+', 'e'].all isHarmless = true := by decide
    exact List.all_eq_true.1 hall c h

theorem passes_of_isNumeral {cs : List Char} (h : Decimal.IsNumeral cs) :
    Passes InCode InCode cs :=
  passes_inCode fun c hc => isHarmless_of_isNumeralChar (h.isNumeralChar c hc)

/-! ## JSON values -/

theorem passes_digitChar {n : Nat} (hn : n < 16) :
    Passes (InString true) (InString true) [Nat.digitChar n] := by
  have hdigit : ∀ k < 16, Nat.digitChar k ≠ '"' ∧ Nat.digitChar k ≠ '\\' ∧
      Nat.digitChar k ≠ '\n' ∧ Nat.digitChar k ≠ '\r' := by decide
  obtain ⟨hquote, hescape, hfeed, hreturn⟩ := hdigit n hn
  exact passes_stringChar hquote hescape hfeed hreturn

theorem passes_jsonEscapeChar (c : Char) :
    Passes (InString true) (InString true) (Json.escapeChar c) := by
  unfold Json.escapeChar
  split
  · exact passes_escaped (by decide) (by decide)
  · exact passes_escaped (by decide) (by decide)
  · exact passes_escaped (by decide) (by decide)
  · exact passes_escaped (by decide) (by decide)
  · exact passes_escaped (by decide) (by decide)
  · rename_i hquote hescape hfeed hreturn _
    split
    · exact passes_escaped (by decide) (by decide)
    · split
      · exact passes_escaped (by decide) (by decide)
      · split
        · rename_i hcontrol
          have hprefix : Passes (InString true) (InString true) ['\\', 'u', '0', '0'] := by
            rintro _ rfl
            exact ⟨rfl, rfl⟩
          exact hprefix.append ((passes_digitChar (by omega)).append (passes_digitChar (by omega)))
        · exact passes_stringChar hquote hescape hfeed hreturn

theorem passes_jsonQuote (text : String) : Passes Calm Calm (Json.quote text).toList := by
  rw [Json.quote, String.toList_ofList]
  change Passes Calm Calm (Lexer.quote true :: _ ++ [Lexer.quote true])
  refine passes_quoted ?_
  induction text.toList with
  | nil => exact .nil fun _ => id
  | cons c cs ih => exact (passes_jsonEscapeChar c).append ih

theorem passes_bracketed {opening closing : Char} (hopening : isPunctuation opening = true)
    (hclosing : isPunctuation closing = true) {texts : List String}
    (h : ∀ text ∈ texts, Passes Calm InCode text.toList) :
    Passes Calm InCode
      (opening :: (Json.joinWith "," texts).toList ++ [closing]) := by
  have hcomma : Passes InCode Calm ",".toList := passes_settling (by decide)
  have hopen : Passes Calm Calm [opening] :=
    (passes_punctuation hopening).mono (fun _ => Calm.inCode) fun _ => id
  refine (hopen.append (passes_joinWith (fun _ => Calm.inCode) hcomma h)).append ?_
  exact (passes_punctuation hclosing).mono (fun _ => id) fun _ => Calm.inCode

mutual

/-- A JSON value can be written wherever the code is calm. -/
theorem passes_compact : ∀ value : Json, Passes Calm InCode value.compact.toList
  | .null => (passes_inCode (List.all_eq_true.1 (by decide))).mono (fun _ => Calm.inCode) fun _ => id
  | .bool true => (passes_inCode (List.all_eq_true.1 (by decide))).mono (fun _ => Calm.inCode) fun _ => id
  | .bool false => (passes_inCode (List.all_eq_true.1 (by decide))).mono (fun _ => Calm.inCode) fun _ => id
  | .number (.int n) =>
      (passes_of_isNumeral (Decimal.isNumeral_intText n)).mono (fun _ => Calm.inCode) fun _ => id
  | .number (.float x) => by
      rw [Json.compact, Json.Number.text]
      split
      · rename_i hfinite
        exact (passes_of_isNumeral (Double.isNumeral_text hfinite _)).mono (fun _ => Calm.inCode)
          fun _ => id
      · exact (passes_inCode (List.all_eq_true.1 (by decide))).mono (fun _ => Calm.inCode)
          fun _ => id
  | .string s => (passes_jsonQuote s).mono (fun _ => id) fun _ => Calm.inCode
  | .array items => by
      have hopening : isPunctuation '[' = true := by decide
      have hclosing : isPunctuation ']' = true := by decide
      have hbracketed := passes_bracketed hopening hclosing (passes_compactItems items)
      rw [Json.compact, String.toList_append, String.toList_append]
      exact hbracketed
  | .object members => by
      have hopening : isPunctuation '\x7b' = true := by decide
      have hclosing : isPunctuation '\x7d' = true := by decide
      have hbracketed := passes_bracketed hopening hclosing (passes_compactMembers members)
      rw [Json.compact, String.toList_append, String.toList_append]
      exact hbracketed

theorem passes_compactItems : ∀ items : List Json,
    ∀ text ∈ Json.compactItems items, Passes Calm InCode text.toList
  | [] => fun _ h => absurd h List.not_mem_nil
  | item :: rest => List.forall_mem_cons.2 ⟨passes_compact item, passes_compactItems rest⟩

theorem passes_compactMembers : ∀ members : List (String × Json),
    ∀ text ∈ Json.compactMembers members, Passes Calm InCode text.toList
  | [] => fun _ h => absurd h List.not_mem_nil
  | (key, value) :: rest => by
      have hcolon : Passes InCode Calm ":".toList := passes_settling (by decide)
      have hkey : Passes Calm InCode (Json.quote key).toList :=
        (passes_jsonQuote key).mono (fun _ => id) fun _ => Calm.inCode
      refine List.forall_mem_cons.2 ⟨?_, passes_compactMembers rest⟩
      rw [String.toList_append, String.toList_append]
      exact (hkey.append hcolon).append (passes_compact value)

end

/-! ## Literals and names -/

theorem passes_literal (value : Json) : Passes Calm InCode (literal value).toList := by
  unfold literal
  split
  · exact (passes_quoted_escape _).mono (fun _ => id) fun _ => Calm.inCode
  · exact passes_compact _

/-- A name can be written in any code. -/
theorem passes_name {name : String} (h : ∀ c ∈ name.toList, Naming.isNameChar c = true) :
    Passes InCode InCode name.toList :=
  passes_inCode fun c hc => isHarmless_of_isNameChar (h c hc)

theorem isNameChar_of_isIdentifier {name : String} (h : isIdentifier name = true) :
    ∀ c ∈ name.toList, Naming.isNameChar c = true := by
  unfold isIdentifier at h
  split at h
  · cases h
  · rename_i c cs hname
    rw [Bool.and_eq_true, List.all_eq_true] at h
    rw [hname]
    exact List.forall_mem_cons.2 ⟨Naming.isNameChar_of_isNameStart h.1, h.2⟩

theorem passes_propertyKey (name : String) : Passes Calm InCode (propertyKey name).toList := by
  unfold propertyKey
  split
  · rename_i hname
    exact (passes_name (isNameChar_of_isIdentifier hname)).mono (fun _ => Calm.inCode) fun _ => id
  · exact (passes_quoted_escape name).mono (fun _ => id) fun _ => Calm.inCode

/-- Names stay inside a string. -/
theorem passes_string_of_name {name : String} {double : Bool}
    (h : ∀ c ∈ name.toList, Naming.isNameChar c = true) :
    Passes (InString double) (InString double) name.toList := by
  have hother : [quote double, '\\', '\n', '\r'].all (!Naming.isNameChar ·) = true := by
    cases double <;> decide +kernel
  have hne : ∀ d ∈ [quote double, '\\', '\n', '\r'], ∀ c ∈ name.toList, c ≠ d := by
    rintro d hd c hc rfl
    exact absurd (h c hc) (by simpa using List.all_eq_true.1 hother c hd)
  exact .of_forall fun c hc => passes_stringChar (hne _ (by simp) c hc) (hne _ (by simp) c hc)
    (hne _ (by simp) c hc) (hne _ (by simp) c hc)

theorem passes_memberKey (name : String) : Passes Calm InCode (memberKey name).toList := by
  unfold memberKey
  split
  · rename_i hreserved
    have hwords : ∀ word ∈ Naming.reservedWords, word.toList.all Naming.isNameChar = true := by
      decide
    have hname := List.all_eq_true.1 (hwords name hreserved)
    have hquote : "'".toList = [quote false] := by decide
    rw [String.toList_append, String.toList_append, hquote]
    exact (passes_quoted (passes_string_of_name hname)).mono (fun _ => id) fun _ => Calm.inCode
  · exact passes_propertyKey name

end TypedClient.Script.Lexer
