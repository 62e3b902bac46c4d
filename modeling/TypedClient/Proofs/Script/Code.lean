import Mathlib.Data.List.TakeWhile
import TypedClient.Proofs.Script.Specifiers
import TypedClient.Script.Literal

/-!
# Code without specifiers

`Passes P Q text` says that a text leads from the states `P` to the states `Q` and holds no
specifier. Code is written where a string is no specifier (`Calm`); literals and property names keep
it that way, and what consists of harmless characters stays in the code (`InCode`).
-/

namespace TypedClient.Script

/-- Whether a string is no specifier at this place, a parenthesis loads no module, and a letter starts
a word. -/
def Before.isCalm : Before → Bool
  | .word letters true =>
    let before := Before.word letters true
    !before.leads && decide (before.opening = .other)
  | .word _ false | .opened => false
  | .other => true

theorem Before.pause_eq_of_isCalm {b : Before} (h : b.isCalm = true) : b.pause = b := by
  match b with
  | .word _ true | .other => rfl

theorem Before.letter_of_isCalm {b : Before} (h : b.isCalm = true) (c : Char) :
    b.letter c = .word [c] false := by
  match b with
  | .word _ true | .other => rfl

theorem Before.leads_of_isCalm {b : Before} (h : b.isCalm = true) : b.leads = false := by
  match b with
  | .word _ true => simp_all [isCalm]
  | .other => rfl

theorem Before.opening_of_isCalm {b : Before} (h : b.isCalm = true) : b.opening = .other := by
  match b with
  | .word _ true => simp_all [isCalm]
  | .other => rfl

/-- The characters that start neither a string nor a comment. -/
def isHarmless (c : Char) : Bool := c != '\'' && c != '"' && c != '\x60' && c != '/'

/-- The characters behind which nothing of the code before matters. -/
def isPunctuation (c : Char) : Bool :=
  isHarmless c && !Text.isBlank c && !isWordChar c && c != '('

namespace Lexer

variable {P Q R : Lexer → Prop} {q : Lexer} {b : Before} {c : Char} {xs ys : List Char}

/-- The code outside of templates. -/
def InCode (q : Lexer) : Prop := ∃ b, q = { mode := .code b }

/-- The code where a string is no specifier. -/
def Calm (q : Lexer) : Prop := ∃ b : Before, b.isCalm = true ∧ q = { mode := .code b }

theorem Calm.inCode (h : Calm q) : InCode q := by
  obtain ⟨b, _, rfl⟩ := h
  exact ⟨b, rfl⟩

theorem calm_start : Calm {} := ⟨.other, rfl, rfl⟩

/-- A text leads from some states to others and holds no specifier. -/
def Passes (P Q : Lexer → Prop) (cs : List Char) : Prop :=
  ∀ q, P q → Q (q.read cs).1 ∧ (q.read cs).2 = []

namespace Passes

theorem nil (h : ∀ q, P q → Q q) : Passes P Q [] := fun q hq => ⟨h q hq, rfl⟩

theorem append (hxs : Passes P Q xs) (hys : Passes Q R ys) : Passes P R (xs ++ ys) := by
  intro q hq
  obtain ⟨hfirst, hnone⟩ := hxs q hq
  obtain ⟨hlast, hnone'⟩ := hys _ hfirst
  rw [read_append, hnone, hnone']
  exact ⟨hlast, rfl⟩

theorem mono {P' Q' : Lexer → Prop} (h : Passes P Q xs) (hP : ∀ q, P' q → P q)
    (hQ : ∀ q, Q q → Q' q) : Passes P' Q' xs := fun q hq =>
  ⟨hQ _ (h q (hP q hq)).1, (h q (hP q hq)).2⟩

/-- Characters one by one. -/
theorem of_forall (h : ∀ c ∈ xs, Passes P P [c]) : Passes P P xs := by
  induction xs with
  | nil => exact .nil fun _ => id
  | cons c xs ih =>
      have hfirst : Passes P P [c] := h c List.mem_cons_self
      exact hfirst.append (ih fun d hd => h d (List.mem_cons_of_mem _ hd))

end Passes

/-- A character of the code ends no specifier. -/
theorem passes_singleton_code (h : ∀ b, P { mode := .code b } →
    Q ((({ mode := .code b } : Lexer)).codeStep b c)) (hP : ∀ q, P q → InCode q) :
    Passes P Q [c] := by
  intro q hq
  obtain ⟨b, rfl⟩ := hP q hq
  exact ⟨h b hq, rfl⟩

/-! ## Harmless characters -/

theorem codeStep_of_isWordChar (hblank : Text.isBlank c = false) (hword : isWordChar c = true)
    (q : Lexer) (b : Before) : q.codeStep b c = { q with mode := .code (b.letter c) } := by
  rw [codeStep, if_neg (by simp [hblank]), if_pos hword]

theorem codeStep_of_isPunctuation (h : isPunctuation c = true) (b b' : Before) :
    ({ mode := .code b } : Lexer).codeStep b' c = {} := by
  simp only [isPunctuation, isHarmless, Bool.and_eq_true, bne_iff_ne, ne_eq,
    Bool.not_eq_eq_eq_not, Bool.not_true] at h
  obtain ⟨⟨⟨⟨⟨⟨hsingle, hdouble⟩, htick⟩, hslash⟩, hblank⟩, hword⟩, hparen⟩ := h
  simp [codeStep, hblank, hword, hsingle, hdouble, htick, hslash, hparen, closeBrace]

/-- A harmless character stays in the code. -/
theorem inCode_codeStep (h : isHarmless c = true) (b b' : Before) :
    InCode (({ mode := .code b } : Lexer).codeStep b' c) := by
  simp only [isHarmless, Bool.and_eq_true, bne_iff_ne, ne_eq] at h
  obtain ⟨⟨⟨hsingle, hdouble⟩, htick⟩, hslash⟩ := h
  unfold codeStep
  split
  · exact ⟨_, rfl⟩
  · split
    · exact ⟨_, rfl⟩
    · simp only [hsingle, hdouble, or_self, if_false]
      repeat' split
      all_goals exact ⟨_, rfl⟩

/-- Harmless characters stay in the code. -/
theorem passes_inCode (h : ∀ c ∈ xs, isHarmless c = true) : Passes InCode InCode xs :=
  .of_forall fun c hc => passes_singleton_code (fun b _ => inCode_codeStep (h c hc) b b) fun _ => id

theorem passes_punctuation (h : isPunctuation c = true) : Passes InCode Calm [c] :=
  passes_singleton_code (fun b _ => codeStep_of_isPunctuation h b b ▸ calm_start) fun _ => id

theorem passes_blanks (h : ∀ c ∈ xs, Text.isBlank c = true) : Passes Calm Calm xs := by
  refine .of_forall fun c hc => ?_
  rintro _ ⟨b, hb, rfl⟩
  have hstep : ({ mode := .code b } : Lexer).step c = { mode := .code b.pause } :=
    if_pos (h c hc)
  rw [Before.pause_eq_of_isCalm hb] at hstep
  exact ⟨⟨b, hb, hstep⟩, rfl⟩

/-- A parenthesis that loads no module. -/
theorem passes_parenthesis : Passes Calm Calm ['('] := by
  rintro _ ⟨b, hb, rfl⟩
  refine ⟨⟨b.opening, ?_, rfl⟩, rfl⟩
  rw [Before.opening_of_isCalm hb]
  rfl

/-- A text that ends in punctuation, up to blanks. -/
def isSettling (cs : List Char) : Bool :=
  cs.all isHarmless && (cs.reverse.dropWhile Text.isBlank).head?.any isPunctuation

/-- Behind punctuation nothing of what was before matters. -/
theorem passes_settling (h : isSettling xs = true) : Passes InCode Calm xs := by
  rw [isSettling, Bool.and_eq_true, List.all_eq_true] at h
  obtain ⟨hharmless, hlast⟩ := h
  have hsplit : xs = (xs.reverse.dropWhile Text.isBlank).reverse ++
      (xs.reverse.takeWhile Text.isBlank).reverse := by
    rw [← List.reverse_append, List.takeWhile_append_dropWhile, List.reverse_reverse]
  cases hrest : xs.reverse.dropWhile Text.isBlank with
  | nil => simp [hrest] at hlast
  | cons c rest =>
      rw [hrest, List.reverse_cons] at hsplit
      rw [hsplit]
      refine Passes.append (Passes.append (passes_inCode fun d hd => hharmless d ?_)
        (passes_punctuation ?_)) (passes_blanks fun d hd => ?_)
      · rw [hsplit]
        simp [hd]
      · simpa [hrest] using hlast
      · exact List.mem_takeWhile_imp (List.mem_reverse.1 hd)

theorem isHarmless_of_isWordChar (h : isWordChar c = true) : isHarmless c = true := by
  simp only [isHarmless, Bool.and_eq_true, bne_iff_ne, ne_eq]
  refine ⟨⟨⟨?_, ?_⟩, ?_⟩, ?_⟩ <;> rintro rfl <;> exact absurd h (by decide)

theorem isHarmless_of_isNameChar (h : Naming.isNameChar c = true) : isHarmless c = true :=
  isHarmless_of_isWordChar (by simp [isWordChar, h])

/-! ## Strings -/

/-- Inside a string that is no specifier. -/
def InString (double : Bool) (q : Lexer) : Prop := q = { mode := .quoted double false none }

variable {double : Bool}

/-- A character of a string that neither ends nor escapes anything. -/
theorem passes_stringChar (hquote : c ≠ quote double) (hescape : c ≠ '\\') (hfeed : c ≠ '\n')
    (hreturn : c ≠ '\r') : Passes (InString double) (InString double) [c] := by
  rintro _ rfl
  simp [InString, read_cons, step, found?, hquote, hescape, hfeed, hreturn]

theorem passes_escaped (hfeed : c ≠ '\n') (hreturn : c ≠ '\r') :
    Passes (InString double) (InString double) ['\\', c] := by
  rintro _ rfl
  have hquote : '\\' ≠ quote double := by cases double <;> decide
  simp [InString, read_cons, step, found?, hquote, hfeed, hreturn]

/-- A string where none is a specifier. -/
theorem passes_quoted (h : Passes (InString double) (InString double) xs) :
    Passes Calm Calm (quote double :: xs ++ [quote double]) := by
  have hopen : Passes Calm (InString double) [quote double] := by
    rintro _ ⟨b, hb, rfl⟩
    refine ⟨?_, rfl⟩
    have hblank : Text.isBlank (quote double) = false := by cases double <;> decide
    have hword : isWordChar (quote double) = false := by cases double <;> decide
    simp only [InString, read_cons, read_nil, step, codeStep, hblank, hword,
      Before.leads_of_isCalm hb]
    cases double <;> rfl
  have hclose : Passes (InString double) Calm [quote double] := by
    rintro _ rfl
    exact ⟨⟨.other, rfl, by cases double <;> rfl⟩, by cases double <;> rfl⟩
  exact (hopen.append h).append hclose

/-- An escaped text stays inside single quotes. -/
theorem passes_escape (text : String) :
    Passes (InString false) (InString false) (escape text).toList := by
  rw [escape, String.toList_ofList]
  induction text.toList with
  | nil => exact .nil fun _ => id
  | cons c cs ih =>
      rw [List.flatMap_cons]
      refine Passes.append ?_ ih
      unfold escapeChar
      split
      · exact passes_escaped (by decide) (by decide)
      · exact passes_escaped (by decide) (by decide)
      · exact passes_escaped (by decide) (by decide)
      · exact passes_escaped (by decide) (by decide)
      · exact passes_stringChar (by assumption) (by assumption) (by assumption) (by assumption)

theorem passes_quoted_escape (text : String) : Passes Calm Calm (Script.quoted text).toList := by
  have hquote : "'".toList = [quote false] := by decide
  rw [Script.quoted, String.toList_append, String.toList_append, hquote]
  exact passes_quoted (passes_escape text)

end Lexer

end TypedClient.Script
