import Mathlib.Data.List.TakeWhile
import TypedClient.Proofs.Script.TypeReader

/-!
# Items between commas

Parameters and arguments are listed between commas, and a comma inside of brackets or of a string
separates none. `Nesting` follows a text through its brackets and strings, and `Nesting.pieces` are
what the commas separate. A text is an item (`IsItem`) if it can be put into a list as one of them;
`map_pieces_joinWith` says that the items of a list are found again.
-/

namespace TypedClient.Script

theorem toList_joinWith_cons (separator text next : String) (others : List String) :
    (Json.joinWith separator (text :: next :: others)).toList =
      text.toList ++ separator.toList ++ (Json.joinWith separator (next :: others)).toList := by
  rw [Json.joinWith, String.toList_append, String.toList_append]
  simp

/-- Joined texts are made of the characters of the texts and of the separator. -/
theorem forall_mem_joinWith {P : Char → Prop} {separator : String}
    (hseparator : ∀ c ∈ separator.toList, P c) {texts : List String}
    (h : ∀ text ∈ texts, ∀ c ∈ text.toList, P c) :
    ∀ c ∈ (Json.joinWith separator texts).toList, P c := by
  induction texts with
  | nil => exact fun c hc => absurd hc (by simp [Json.joinWith])
  | cons text rest ih =>
      have htext := h text List.mem_cons_self
      cases rest with
      | nil => exact htext
      | cons next others =>
          have hrest := ih fun other hother => h other (List.mem_cons_of_mem _ hother)
          rw [toList_joinWith_cons]
          exact List.forall_mem_append.2 ⟨List.forall_mem_append.2 ⟨htext, hseparator⟩, hrest⟩

/-- Where a reader is: inside of how many brackets, and inside of which string. -/
structure Nesting where
  depth : Nat := 0
  quote : Option Char := none
  isEscaped : Bool := false
deriving DecidableEq, Repr

/-- The quotes around a string. -/
def isQuote (c : Char) : Bool := c == '\'' || c == '"'

def opensBracket (c : Char) : Bool := decide (c ∈ ['(', '[', '\x7b', '<'])

def closesBracket (c : Char) : Bool := decide (c ∈ [')', ']', '\x7d', '>'])

/-- The characters that change no nesting. -/
def isLevel (c : Char) : Bool := !isQuote c && !opensBracket c && !closesBracket c

namespace Nesting

/-- Behind one more character. -/
def step (q : Nesting) (c : Char) : Nesting :=
  match q.quote with
  | some mark =>
    if q.isEscaped then { q with isEscaped := false }
    else if c = '\\' then { q with isEscaped := true }
    else if c = mark then { q with quote := none }
    else q
  | none =>
    if isQuote c then { q with quote := some c }
    else if opensBracket c then { q with depth := q.depth + 1 }
    else if closesBracket c then { q with depth := q.depth - 1 }
    else q

/-- Whether a character separates two items here. -/
def separates (q : Nesting) (c : Char) : Bool := c == ',' && q.quote.isNone && q.depth == 0

/-- The pieces between the commas that separate. -/
def pieces : Nesting → List Char → List (List Char)
  | _, [] => [[]]
  | q, c :: cs =>
    if q.separates c then [] :: q.pieces cs else ((q.step c).pieces cs).modifyHead (c :: ·)

/-- A text leads from one nesting to another and holds no comma that separates. -/
def Leads (q r : Nesting) (cs : List Char) : Prop :=
  ∀ rest, q.pieces (cs ++ rest) = (r.pieces rest).modifyHead (cs ++ ·)

variable {q r s : Nesting} {c : Char} {xs ys : List Char}

namespace Leads

theorem nil (q : Nesting) : Leads q q [] := fun rest =>
  (congrFun List.modifyHead_id (q.pieces rest)).symm

theorem append (hxs : Leads q r xs) (hys : Leads r s ys) : Leads q s (xs ++ ys) := by
  intro rest
  have hcomp : (xs ++ ·) ∘ (ys ++ ·) = (xs ++ ys ++ ·) := by
    funext zs
    simp
  rw [List.append_assoc, hxs, hys, List.modifyHead_modifyHead, hcomp]

theorem singleton (h : q.separates c = false) : Leads q (q.step c) [c] := by
  intro rest
  rw [List.singleton_append, pieces, if_neg (by simp [h])]
  rfl

/-- Characters one by one. -/
theorem of_forall (h : ∀ c ∈ xs, Leads q q [c]) : Leads q q xs := by
  induction xs with
  | nil => exact nil q
  | cons c xs ih =>
      have hfirst : Leads q q [c] := h c List.mem_cons_self
      exact hfirst.append (ih fun d hd => h d (List.mem_cons_of_mem _ hd))

theorem joinWith {separator : String} (hseparator : Leads q q separator.toList)
    {texts : List String} (h : ∀ text ∈ texts, Leads q q text.toList) :
    Leads q q (Json.joinWith separator texts).toList := by
  induction texts with
  | nil => exact nil q
  | cons text rest ih =>
      have htext := h text List.mem_cons_self
      cases rest with
      | nil => exact htext
      | cons next others =>
          have hrest := ih fun other hother => h other (List.mem_cons_of_mem _ hother)
          rw [toList_joinWith_cons]
          exact (htext.append hseparator).append hrest

end Leads

end Nesting

open Nesting (Leads)

variable {c : Char} {xs ys : List Char}

/-- A text closes the brackets and strings that it opens, and no comma outside of them separates. -/
def IsItem (cs : List Char) : Prop := ∀ depth, Leads { depth } { depth } cs

/-- A text that can stand inside of brackets, where no comma separates. -/
def IsInside (cs : List Char) : Prop :=
  ∀ depth, Leads { depth := depth + 1 } { depth := depth + 1 } cs

theorem IsItem.isInside (h : IsItem xs) : IsInside xs := fun depth => h (depth + 1)

theorem IsItem.append (hxs : IsItem xs) (hys : IsItem ys) : IsItem (xs ++ ys) := fun depth =>
  (hxs depth).append (hys depth)

theorem IsInside.append (hxs : IsInside xs) (hys : IsInside ys) : IsInside (xs ++ ys) :=
  fun depth => (hxs depth).append (hys depth)

/-! ## Characters -/

theorem Nesting.step_of_isLevel (h : isLevel c = true) (depth : Nat) :
    ({ depth } : Nesting).step c = { depth } := by
  simp only [isLevel, Bool.and_eq_true, Bool.not_eq_eq_eq_not, Bool.not_true] at h
  simp [step, h.1.1, h.1.2, h.2]

theorem leads_of_isLevel (h : isLevel c = true) (depth : Nat)
    (hseparates : ({ depth } : Nesting).separates c = false) : Leads { depth } { depth } [c] := by
  have hstep := Leads.singleton hseparates
  rwa [Nesting.step_of_isLevel h] at hstep

theorem isItem_of_isLevel (h : ∀ c ∈ xs, isLevel c = true ∧ c ≠ ',') : IsItem xs := fun depth =>
  .of_forall fun c hc => leads_of_isLevel (h c hc).1 depth (by simp [Nesting.separates, (h c hc).2])

theorem isInside_of_isLevel (h : xs.all isLevel = true) : IsInside xs := fun depth =>
  .of_forall fun c hc =>
    leads_of_isLevel (List.all_eq_true.1 h c hc) (depth + 1) (by simp [Nesting.separates])

/-- A text without brackets, quotes and commas. -/
def isPlain (cs : List Char) : Bool := cs.all fun c => isLevel c && c != ','

theorem isItem_of_isPlain (h : isPlain xs = true) : IsItem xs := by
  refine isItem_of_isLevel fun c hc => ?_
  simpa using List.all_eq_true.1 h c hc

theorem isItem_of_forall {p : Char → Bool} (hxs : ∀ c ∈ xs, p c = true)
    (hp : ∀ c, p c = true → isLevel c = true ∧ c ≠ ',') : IsItem xs :=
  isItem_of_isLevel fun c hc => hp c (hxs c hc)

/-- The characters of names are neither brackets nor quotes nor commas. -/
theorem isLevel_of_isNameChar (h : Naming.isNameChar c = true) : isLevel c = true ∧ c ≠ ',' := by
  have hother : (['\'', '"', '(', '[', '\x7b', '<', ')', ']', '\x7d', '>', ','].all
      fun d => !Naming.isNameChar d) = true := by decide
  have hne : ∀ d ∈ ['\'', '"', '(', '[', '\x7b', '<', ')', ']', '\x7d', '>', ','], c ≠ d := by
    rintro d hd rfl
    have hnot := List.all_eq_true.1 hother c hd
    rw [h] at hnot
    exact Bool.false_ne_true hnot
  simp only [List.mem_cons, List.not_mem_nil, or_false, forall_eq_or_imp, forall_eq] at hne
  simp [isLevel, isQuote, opensBracket, closesBracket, hne]

theorem isItem_of_isWord {name : String} (h : Naming.IsWord name) : IsItem name.toList :=
  isItem_of_forall h fun _ => isLevel_of_isNameChar

theorem isLevel_of_isNumeralChar (h : Decimal.isNumeralChar c = true) :
    isLevel c = true ∧ c ≠ ',' := by
  simp only [Decimal.isNumeralChar, Bool.or_eq_true, decide_eq_true_eq] at h
  rcases h with h | h
  · exact isLevel_of_isNameChar (by simp [Naming.isNameChar, Char.isAlphanum, h])
  · have hall : isPlain ['.', '-', '+', 'e'] = true := by decide
    simpa using List.all_eq_true.1 hall c h

theorem isItem_of_isNumeral (h : Decimal.IsNumeral xs) : IsItem xs :=
  isItem_of_forall h.isNumeralChar fun _ => isLevel_of_isNumeralChar

/-! ## Brackets and strings -/

/-- Brackets that open are neither quotes nor commas. -/
theorem isQuote_of_opensBracket (h : opensBracket c = true) : isQuote c = false ∧ c ≠ ',' := by
  have hall : ['(', '[', '\x7b', '<'].all (fun d => !isQuote d && d != ',') = true := by decide
  simp only [opensBracket, decide_eq_true_eq] at h
  simpa using List.all_eq_true.1 hall c h

/-- Brackets that close are no quotes and open nothing. -/
theorem isQuote_of_closesBracket (h : closesBracket c = true) :
    isQuote c = false ∧ opensBracket c = false := by
  have hall : [')', ']', '\x7d', '>'].all (fun d => !isQuote d && !opensBracket d) = true := by
    decide
  simp only [closesBracket, decide_eq_true_eq] at h
  simpa using List.all_eq_true.1 hall c h

/-- What stands between brackets is one item, whatever commas it has. -/
theorem isItem_bracketed {opening closing : Char}
    (hopening : opensBracket opening = true) (hclosing : closesBracket closing = true)
    (h : IsInside xs) : IsItem (opening :: xs ++ [closing]) := by
  intro depth
  have hopen : Leads { depth } { depth := depth + 1 } [opening] := by
    obtain ⟨hquote, hcomma⟩ := isQuote_of_opensBracket hopening
    have hstep : ({ depth } : Nesting).step opening = { depth := depth + 1 } := by
      simp [Nesting.step, hquote, hopening]
    rw [← hstep]
    exact .singleton (by simp [Nesting.separates, hcomma])
  have hclose : Leads { depth := depth + 1 } { depth } [closing] := by
    obtain ⟨hquote, hnotOpening⟩ := isQuote_of_closesBracket hclosing
    have hstep : ({ depth := depth + 1 } : Nesting).step closing = { depth } := by
      simp [Nesting.step, hquote, hnotOpening, hclosing]
    rw [← hstep]
    exact .singleton (by simp [Nesting.separates])
  exact (hopen.append (h depth)).append hclose

/-- A text that stays inside of a string. -/
def IsQuoted (mark : Char) (cs : List Char) : Prop :=
  ∀ depth, Leads { depth, quote := some mark } { depth, quote := some mark } cs

variable {mark : Char}

theorem IsQuoted.append (hxs : IsQuoted mark xs) (hys : IsQuoted mark ys) :
    IsQuoted mark (xs ++ ys) := fun depth => (hxs depth).append (hys depth)

theorem IsQuoted.flatMap {escape : Char → List Char} (h : ∀ c, IsQuoted mark (escape c))
    (cs : List Char) : IsQuoted mark (cs.flatMap escape) := by
  induction cs with
  | nil => exact fun depth => .nil _
  | cons c cs ih => exact (h c).append ih

theorem isQuoted_singleton (hmark : c ≠ mark) (hescape : c ≠ '\\') : IsQuoted mark [c] := by
  intro depth
  have hstep :
      ({ depth, quote := some mark } : Nesting).step c = { depth, quote := some mark } := by
    simp [Nesting.step, hmark, hescape]
  have hleads : Leads { depth, quote := some mark }
      (({ depth, quote := some mark } : Nesting).step c) [c] :=
    .singleton (by simp [Nesting.separates])
  rwa [hstep] at hleads

theorem isQuoted_escaped (c : Char) : IsQuoted mark ['\\', c] := by
  intro depth
  have hescape : Leads { depth, quote := some mark }
      (({ depth, quote := some mark } : Nesting).step '\\') ['\\'] :=
    .singleton (by simp [Nesting.separates])
  have hstep : ({ depth, quote := some mark } : Nesting).step '\\' =
      { depth, quote := some mark, isEscaped := true } := by simp [Nesting.step]
  rw [hstep] at hescape
  have hchar : Leads { depth, quote := some mark, isEscaped := true }
      { depth, quote := some mark } [c] := .singleton (by simp [Nesting.separates])
  exact hescape.append hchar

/-- A string is one item, whatever it holds. -/
theorem isItem_string (hmark : isQuote mark = true) (h : IsQuoted mark xs) :
    IsItem (mark :: xs ++ [mark]) := by
  intro depth
  have hne : mark ≠ ',' ∧ mark ≠ '\\' := by
    constructor <;> rintro rfl <;> exact absurd hmark (by decide)
  have hopen : Leads { depth } { depth, quote := some mark } [mark] := by
    have hstep : ({ depth } : Nesting).step mark = { depth, quote := some mark } := by
      simp [Nesting.step, hmark]
    rw [← hstep]
    exact .singleton (by simp [Nesting.separates, hne.1])
  have hclose : Leads { depth, quote := some mark } { depth } [mark] := by
    have hstep : ({ depth, quote := some mark } : Nesting).step mark = { depth } := by
      simp [Nesting.step, hne.2]
    rw [← hstep]
    exact .singleton (by simp [Nesting.separates])
  exact (hopen.append (h depth)).append hclose

theorem isItem_quoted (text : String) : IsItem (quoted text).toList := by
  have hchar : ∀ c, IsQuoted '\'' (escapeChar c) := by
    intro c
    unfold escapeChar
    split
    · exact isQuoted_escaped _
    · exact isQuoted_escaped _
    · exact isQuoted_escaped _
    · exact isQuoted_escaped _
    · exact isQuoted_singleton (by assumption) (by assumption)
  rw [toList_quoted]
  exact isItem_string (by decide) (.flatMap hchar _)

/-! ## JSON values -/

theorem isQuoted_digitChar {n : Nat} (hn : n < 16) : IsQuoted '"' [Nat.digitChar n] := by
  have hdigit : ∀ k < 16, Nat.digitChar k ≠ '"' ∧ Nat.digitChar k ≠ '\\' := by decide
  exact isQuoted_singleton (hdigit n hn).1 (hdigit n hn).2

theorem isItem_jsonQuote (text : String) : IsItem (Json.quote text).toList := by
  have hchar : ∀ c, IsQuoted '"' (Json.escapeChar c) := by
    intro c
    unfold Json.escapeChar
    split
    · exact isQuoted_escaped _
    · exact isQuoted_escaped _
    · exact isQuoted_escaped _
    · exact isQuoted_escaped _
    · exact isQuoted_escaped _
    · split
      · exact isQuoted_escaped _
      · split
        · exact isQuoted_escaped _
        · split
          · -- A control character is written with four digits behind its escape.
            have hzeros : IsQuoted '"' ['0', '0'] :=
              (isQuoted_singleton (by decide) (by decide)).append
                (isQuoted_singleton (by decide) (by decide))
            have hdigits : IsQuoted '"' (Json.hexPair c.toNat) :=
              (isQuoted_digitChar (by omega)).append (isQuoted_digitChar (by omega))
            exact ((isQuoted_escaped 'u').append hzeros).append hdigits
          · exact isQuoted_singleton (by assumption) (by assumption)
  rw [Json.quote, String.toList_ofList]
  exact isItem_string (by decide) (.flatMap hchar _)

theorem isItem_number (n : Json.Number) : IsItem n.text.toList := by
  cases n with
  | int n => exact isItem_of_isNumeral (Decimal.isNumeral_intText n)
  | float x =>
      rw [Json.Number.text]
      split
      · rename_i hfinite
        exact isItem_of_isNumeral (Double.isNumeral_text hfinite _)
      · exact isItem_of_isPlain (by decide)

theorem isItem_bracketedList {opening closing : Char} (hopening : opensBracket opening = true)
    (hclosing : closesBracket closing = true) {texts : List String}
    (h : ∀ text ∈ texts, IsItem text.toList) :
    IsItem (opening :: (Json.joinWith "," texts).toList ++ [closing]) := by
  have hcomma : IsInside ",".toList := isInside_of_isLevel (by decide)
  exact isItem_bracketed hopening hclosing fun depth =>
    .joinWith (hcomma depth) fun text htext => (h text htext).isInside depth

mutual

/-- A JSON value is one item. -/
theorem isItem_compact : ∀ value : Json, IsItem value.compact.toList
  | .null => isItem_of_isPlain (by decide)
  | .bool true => isItem_of_isPlain (by decide)
  | .bool false => isItem_of_isPlain (by decide)
  | .number n => isItem_number n
  | .string s => isItem_jsonQuote s
  | .array items => by
      have hopening : opensBracket '[' = true := by decide
      have hclosing : closesBracket ']' = true := by decide
      have hlist := isItem_bracketedList hopening hclosing (isItem_compactItems items)
      rw [Json.compact, String.toList_append, String.toList_append]
      exact hlist
  | .object members => by
      have hopening : opensBracket '\x7b' = true := by decide
      have hclosing : closesBracket '\x7d' = true := by decide
      have hlist := isItem_bracketedList hopening hclosing (isItem_compactMembers members)
      rw [Json.compact, String.toList_append, String.toList_append]
      exact hlist

theorem isItem_compactItems : ∀ items : List Json,
    ∀ text ∈ Json.compactItems items, IsItem text.toList
  | [] => fun _ h => absurd h List.not_mem_nil
  | item :: rest => List.forall_mem_cons.2 ⟨isItem_compact item, isItem_compactItems rest⟩

theorem isItem_compactMembers : ∀ members : List (String × Json),
    ∀ text ∈ Json.compactMembers members, IsItem text.toList
  | [] => fun _ h => absurd h List.not_mem_nil
  | (key, value) :: rest => by
      have hcolon : IsItem ":".toList := isItem_of_isPlain (by decide)
      refine List.forall_mem_cons.2 ⟨?_, isItem_compactMembers rest⟩
      rw [String.toList_append, String.toList_append]
      exact ((isItem_jsonQuote key).append hcolon).append (isItem_compact value)

end

theorem isItem_literal (value : Json) : IsItem (literal value).toList := by
  unfold literal
  split
  · exact isItem_quoted _
  · exact isItem_compact _

theorem isItem_propertyKey (name : String) : IsItem (propertyKey name).toList := by
  unfold propertyKey
  split
  · rename_i hname
    exact isItem_of_isWord (Lexer.isNameChar_of_isIdentifier hname)
  · exact isItem_quoted name

/-! ## Reading items -/

/-- What a list says about an item: its name, and whether it must be given. -/
structure ListedItem where
  name : String
  isRequired : Bool
deriving DecidableEq, Repr

/-- What stands at the start of a piece, behind blanks. -/
def readItem (piece : List Char) : ListedItem :=
  let (name, rest) := readWhile Naming.isNameChar (piece.dropWhile Text.isBlank)
  ⟨name, rest.head? != some '?'⟩

/-- The items of a list. -/
def readItems (cs : List Char) : List ListedItem :=
  if cs.isEmpty then [] else (Nesting.pieces {} cs).map readItem

/-- The names that a list gives, or that the brackets at its start give. -/
def listedNames (text : String) : List String :=
  let items := match text.toList with
    | [] => []
    | c :: cs =>
      if opensBracket c then readItems (cs.takeWhile (!closesBracket ·)) else readItems (c :: cs)
  items.map (·.name)

theorem readItem_blank (piece : List Char) : readItem (' ' :: piece) = readItem piece := rfl

/-- A word in front of something else is read as a name. -/
theorem readItem_append {name : String} (hname : Naming.IsWord name) (hne : name ≠ "")
    {rest : List Char} (hrest : ∀ c ∈ rest.head?, Naming.isNameChar c = false) :
    readItem (name.toList ++ rest) = ⟨name, rest.head? != some '?'⟩ := by
  obtain ⟨c, cs, hcs⟩ : ∃ c cs, name.toList = c :: cs := by
    cases hlist : name.toList with
    | nil => exact absurd (String.toList_inj.1 hlist) hne
    | cons c cs => exact ⟨c, cs, rfl⟩
  have hblank : (name.toList ++ rest).dropWhile Text.isBlank = name.toList ++ rest := by
    have hc : Text.isBlank c = false :=
      Naming.isBlank_of_isNameChar (hname c (hcs ▸ List.mem_cons_self))
    rw [hcs, List.cons_append, List.dropWhile_cons, if_neg (by simp [hc])]
  rw [readItem, hblank, readWhile_append hname hrest, String.ofList_toList]

/-- A blank in front of a piece is not read. -/
theorem map_pieces_blank {β : Type} {read : List Char → β}
    (hblank : ∀ piece, read (' ' :: piece) = read piece) (cs : List Char) :
    (Nesting.pieces {} (' ' :: cs)).map read = (Nesting.pieces {} cs).map read := by
  have hpieces : Nesting.pieces {} (' ' :: cs) =
      (Nesting.pieces {} cs).modifyHead (' ' :: ·) := rfl
  rw [hpieces]
  cases Nesting.pieces {} cs with
  | nil => rfl
  | cons piece others => rw [List.modifyHead_cons, List.map_cons, hblank, List.map_cons]

/-- The items of a list are found again, with anything behind the last one that separates none. -/
theorem map_pieces_joinWith {α β : Type} (text : α → String) {value : α → β}
    {read : List Char → β} (hblank : ∀ piece, read (' ' :: piece) = read piece)
    {tail : List Char} (htail : Nesting.pieces {} tail = [tail]) {items : List α} (hne : items ≠ [])
    (h : ∀ a ∈ items, IsItem (text a).toList ∧ read (text a).toList = value a ∧
      read ((text a).toList ++ tail) = value a) :
    (Nesting.pieces {} ((Json.joinWith ", " (items.map text)).toList ++ tail)).map read =
      items.map value := by
  induction items with
  | nil => exact absurd rfl hne
  | cons a items ih =>
      obtain ⟨hitem, hread, hlast⟩ := h a List.mem_cons_self
      cases items with
      | nil =>
          change (Nesting.pieces {} ((text a).toList ++ tail)).map read = [value a]
          rw [hitem 0, htail]
          exact congrArg (fun b => [b]) hlast
      | cons next others =>
          have hrest := ih (List.cons_ne_nil _ _) fun b hb => h b (List.mem_cons_of_mem _ hb)
          have hsplit : (Json.joinWith ", " ((a :: next :: others).map text)).toList ++ tail =
              (text a).toList ++ (',' :: ' ' ::
                ((Json.joinWith ", " ((next :: others).map text)).toList ++ tail)) := by
            have hseparator : ", ".toList = [',', ' '] := by decide
            rw [List.map_cons, List.map_cons, toList_joinWith_cons, hseparator]
            simp
          have hcomma : ∀ cs, Nesting.pieces {} (',' :: cs) = [] :: Nesting.pieces {} cs :=
            fun _ => rfl
          rw [hsplit, hitem 0, hcomma, List.modifyHead_cons, List.append_nil, List.map_cons, hread,
            map_pieces_blank hblank, hrest]
          rfl

end TypedClient.Script
