import TypedClient.Proofs.Script.Items

/-!
# Grouping

An operator joins what stands beside it in the same bracket. `Grouping` follows a text through its
strings and through its brackets, each of which is closed by a bracket of its own kind. A text is
primary (`IsPrimary`) if its brackets match and no union or intersection stands outside of them.
Such a text can be put into any other one: whichever bracket is split at its operators, the text
belongs to one operand (`IsPrimary.operands_append`).
-/

namespace TypedClient

/-- A string, a number or a boolean. -/
def Json.IsScalar : Json → Prop
  | .string _ | .number _ | .bool _ => True
  | .null | .array _ | .object _ => False

namespace Script

/-- The operators of unions and intersections. -/
def isOperator (c : Char) : Bool := c == '|' || c == '&'

/-- The bracket that closes another one. -/
def closingOf? : Char → Option Char
  | '(' => some ')'
  | '[' => some ']'
  | '\x7b' => some '\x7d'
  | '<' => some '>'
  | _ => none

/-- Where a reader is: which brackets are still to be closed, the innermost first, and in which
string. -/
structure Grouping where
  awaited : List Char := []
  quote : Option Char := none
  isEscaped : Bool := false
deriving DecidableEq, Repr

namespace Grouping

/-- Behind one more character of a string. -/
def quotedStep (q : Grouping) (mark c : Char) : Grouping :=
  if q.isEscaped then { q with isEscaped := false }
  else if c = '\\' then { q with isEscaped := true }
  else if c = mark then { q with quote := none }
  else q

/-- Behind a bracket that closes the innermost one, if it is of its kind. -/
def close (q : Grouping) (c : Char) : Option Grouping :=
  match q.awaited with
  | [] => none
  | closing :: others => if c = closing then some { q with awaited := others } else none

/-- Behind one more character outside of strings. -/
def codeStep (q : Grouping) (c : Char) : Option Grouping :=
  if isQuote c then some { q with quote := some c }
  else match closingOf? c with
    | some closing => some { q with awaited := closing :: q.awaited }
    | none => if closesBracket c then q.close c else some q

/-- Behind one more character, if no bracket is closed by one of another kind. -/
def step (q : Grouping) (c : Char) : Option Grouping :=
  match q.quote with
  | some mark => some (q.quotedStep mark c)
  | none => q.codeStep c

/-- Behind a text whose brackets are closed as they should. -/
def read : Grouping → List Char → Option Grouping
  | q, [] => some q
  | q, c :: cs => (q.step c).bind (·.read cs)

/-- Whether the reader is in no string, and in the bracket for which `floor` is awaited. -/
def isIn (q : Grouping) (floor : List Char) : Bool := q.quote.isNone && q.awaited == floor

/-- The characters that stand outside of every bracket and string. -/
def outside : Grouping → List Char → List Char
  | _, [] => []
  | q, c :: cs =>
    let rest := (q.step c).elim [] (·.outside cs)
    if q.isIn [] then c :: rest else rest

/-- What an operator separates in the bracket for which `floor` is awaited, up to the end of the
bracket. -/
def operands (operator : Char) (floor : List Char) : Grouping → List Char → List (List Char)
  | _, [] => [[]]
  | q, c :: cs =>
    if q.isIn floor && closesBracket c then [[]]
    else if q.isIn floor && c == operator then [] :: q.operands operator floor cs
    else (q.step c).elim [[]] fun r => (r.operands operator floor cs).modifyHead (c :: ·)

/-- The same place in a text that stands in more brackets. -/
def within (q : Grouping) (base : List Char) : Grouping := { q with awaited := q.awaited ++ base }

end Grouping

open Grouping

/-- A text whose brackets match. -/
def IsMatched (cs : List Char) : Prop := read {} cs = some {}

/-- A text whose brackets match, and outside of which no union or intersection stands. -/
structure IsPrimary (cs : List Char) : Prop where
  isMatched : IsMatched cs
  outside : ∀ c ∈ Grouping.outside {} cs, isOperator c = false

variable {q r s : Grouping} {c : Char} {xs ys base floor : List Char}

theorem closingOf?_eq_none (h : opensBracket c = false) : closingOf? c = none := by
  unfold closingOf?
  split <;> first | rfl | exact absurd h (by decide)

namespace Grouping

/-! ## Reading on -/

theorem read_append (h : q.read xs = some r) (ys : List Char) :
    q.read (xs ++ ys) = r.read ys := by
  induction xs generalizing q with
  | nil =>
      cases h
      rfl
  | cons c xs ih =>
      obtain ⟨s, hstep, hrest⟩ := Option.bind_eq_some_iff.1 h
      rw [List.cons_append, read, hstep, Option.bind_some]
      exact ih hrest

theorem outside_append (h : q.read xs = some r) (ys : List Char) :
    q.outside (xs ++ ys) = q.outside xs ++ r.outside ys := by
  induction xs generalizing q with
  | nil =>
      cases h
      rfl
  | cons c xs ih =>
      obtain ⟨s, hstep, hrest⟩ := Option.bind_eq_some_iff.1 h
      rw [List.cons_append, outside, outside, hstep]
      simp only [Option.elim_some, ih hrest]
      split <;> rfl

/-! ## In more brackets -/

@[simp] theorem within_quote (q : Grouping) (base : List Char) :
    (q.within base).quote = q.quote := rfl

theorem quotedStep_within (q : Grouping) (base : List Char) (mark c : Char) :
    (q.within base).quotedStep mark c = (q.quotedStep mark c).within base := by
  unfold quotedStep
  simp only [apply_ite (within · base)]
  rfl

theorem close_within (h : q.close c = some r) (base : List Char) :
    (q.within base).close c = some (r.within base) := by
  obtain ⟨awaited, quote, isEscaped⟩ := q
  cases awaited with
  | nil => cases h
  | cons closing others =>
      obtain ⟨hclosing, hr⟩ := Option.ite_none_right_eq_some.1 h
      cases hr
      exact if_pos hclosing

theorem codeStep_within (h : q.codeStep c = some r) (base : List Char) :
    (q.within base).codeStep c = some (r.within base) := by
  unfold codeStep at h ⊢
  by_cases hquote : isQuote c = true
  · rw [if_pos hquote] at h ⊢
    cases h
    rfl
  · rw [if_neg hquote] at h ⊢
    cases hclosing : closingOf? c with
    | some closing =>
        rw [hclosing] at h
        cases h
        rfl
    | none =>
        rw [hclosing] at h
        by_cases hcloses : closesBracket c = true
        · simp only [if_pos hcloses] at h ⊢
          exact close_within h base
        · simp only [if_neg hcloses] at h ⊢
          cases h
          rfl

/-- What is closed was opened before, so the brackets around are not looked at. -/
theorem step_within (h : q.step c = some r) (base : List Char) :
    (q.within base).step c = some (r.within base) := by
  unfold step at h ⊢
  rw [within_quote]
  cases hquote : q.quote with
  | some mark =>
      rw [hquote] at h
      cases h
      simp only [quotedStep_within]
  | none =>
      rw [hquote] at h
      exact codeStep_within h base

theorem read_within (h : q.read xs = some r) (base : List Char) :
    (q.within base).read xs = some (r.within base) := by
  induction xs generalizing q with
  | nil =>
      cases h
      rfl
  | cons c xs ih =>
      obtain ⟨s, hstep, hrest⟩ := Option.bind_eq_some_iff.1 h
      rw [read, step_within hstep, Option.bind_some]
      exact ih hrest

/-- A bracket around a text leaves nothing of it outside. -/
theorem outside_within (h : q.read xs = some r) (hbase : base ≠ []) :
    (q.within base).outside xs = [] := by
  induction xs generalizing q with
  | nil => rfl
  | cons c xs ih =>
      obtain ⟨s, hstep, hrest⟩ := Option.bind_eq_some_iff.1 h
      have hin : (q.within base).isIn [] = false := by simp [isIn, within, hbase]
      rw [outside, step_within hstep, hin]
      exact ih hrest

/-! ## Operands -/

/-- The reader is in the bracket of `floor`, or around it, only where nothing of the text is open. -/
theorem isIn_of_within (hfloor : floor <:+ base) (h : (q.within base).isIn floor = true) :
    q.isIn [] = true := by
  simp only [isIn, within, Bool.and_eq_true, beq_iff_eq] at h ⊢
  obtain ⟨hquote, hawaited⟩ := h
  have hlength : q.awaited.length = 0 := by
    have hle := hfloor.length_le
    have heq := congrArg List.length hawaited
    rw [List.length_append] at heq
    omega
  exact ⟨hquote, List.length_eq_zero_iff.1 hlength⟩

/-- Nothing can be closed where nothing is open. -/
theorem step_eq_none (h : q.isIn [] = true) (hc : closesBracket c = true) : q.step c = none := by
  obtain ⟨awaited, quote, isEscaped⟩ := q
  simp only [isIn, Bool.and_eq_true, beq_iff_eq, Option.isNone_iff_eq_none] at h
  obtain ⟨rfl, rfl⟩ := h
  have hquote : isQuote c = false := (isQuote_of_closesBracket hc).1
  have hclosing : closingOf? c = none := closingOf?_eq_none (isQuote_of_closesBracket hc).2
  simp [step, codeStep, close, hquote, hclosing, hc]

/-- A text that is read from its start to its end, with no operator outside, stays in one operand
of every bracket around it. -/
theorem operands_within {operator : Char} (h : q.read xs = some r) (hfloor : floor <:+ base)
    (houtside : ∀ c ∈ q.outside xs, c ≠ operator) (rest : List Char) :
    (q.within base).operands operator floor (xs ++ rest) =
      ((r.within base).operands operator floor rest).modifyHead (xs ++ ·) := by
  induction xs generalizing q with
  | nil =>
      cases h
      exact (congrFun List.modifyHead_id _).symm
  | cons c xs ih =>
      obtain ⟨s, hstep, hrest⟩ := Option.bind_eq_some_iff.1 h
      rw [outside, hstep, Option.elim_some] at houtside
      have hcloses : ((q.within base).isIn floor && closesBracket c) = false := by
        by_contra hboth
        obtain ⟨hin, hc⟩ := Bool.and_eq_true_iff.1 (Bool.eq_true_of_not_eq_false hboth)
        rw [step_eq_none (isIn_of_within hfloor hin) hc] at hstep
        cases hstep
      have hseparates : ((q.within base).isIn floor && c == operator) = false := by
        by_contra hboth
        obtain ⟨hin, hc⟩ := Bool.and_eq_true_iff.1 (Bool.eq_true_of_not_eq_false hboth)
        rw [if_pos (isIn_of_within hfloor hin)] at houtside
        exact houtside c List.mem_cons_self (beq_iff_eq.1 hc)
      have hothers : ∀ d ∈ s.outside xs, d ≠ operator := by
        intro d hd
        refine houtside d ?_
        split
        · exact List.mem_cons_of_mem _ hd
        · exact hd
      have hcomp : (c :: ·) ∘ (xs ++ ·) = (c :: xs ++ ·) := rfl
      rw [List.cons_append, operands, hcloses, hseparates, step_within hstep, Option.elim_some,
        ih hrest hothers, List.modifyHead_modifyHead, hcomp]
      rfl

end Grouping

/-- A primary text belongs to one operand, whatever brackets it is put into and whatever follows. -/
theorem IsPrimary.operands_append {operator : Char} (h : IsPrimary xs)
    (hoperator : isOperator operator = true) (hfloor : floor <:+ base) (rest : List Char) :
    operands operator floor { awaited := base } (xs ++ rest) =
      (operands operator floor { awaited := base } rest).modifyHead (xs ++ ·) := by
  refine operands_within h.isMatched hfloor (fun c hc heq => ?_) rest
  have hnot := h.outside c hc
  rw [heq, hoperator] at hnot
  cases hnot

/-! ## Texts one after another -/

theorem IsMatched.append (hxs : IsMatched xs) (hys : IsMatched ys) : IsMatched (xs ++ ys) := by
  rw [IsMatched, read_append hxs]
  exact hys

theorem IsMatched.joinWith {separator : String} (hseparator : IsMatched separator.toList)
    {texts : List String} (h : ∀ text ∈ texts, IsMatched text.toList) :
    IsMatched (Json.joinWith separator texts).toList := by
  induction texts with
  | nil => rfl
  | cons text rest ih =>
      have htext := h text List.mem_cons_self
      cases rest with
      | nil => exact htext
      | cons next others =>
          have hrest := ih fun other hother => h other (List.mem_cons_of_mem _ hother)
          rw [toList_joinWith_cons]
          exact (htext.append hseparator).append hrest

theorem IsPrimary.append (hxs : IsPrimary xs) (hys : IsPrimary ys) : IsPrimary (xs ++ ys) where
  isMatched := hxs.isMatched.append hys.isMatched
  outside c hc := by
    rw [outside_append hxs.isMatched] at hc
    exact (List.mem_append.1 hc).elim (hxs.outside c) (hys.outside c)

/-! ## Characters -/

/-- The characters that change no grouping and join nothing. -/
def isAtomic (c : Char) : Bool := isLevel c && !isOperator c

theorem Grouping.step_of_isLevel (h : isLevel c = true) : ({} : Grouping).step c = some {} := by
  simp only [isLevel, Bool.and_eq_true, Bool.not_eq_eq_eq_not, Bool.not_true] at h
  simp [step, codeStep, h.1.1, h.2, closingOf?_eq_none h.1.2]

theorem isMatched_of_isLevel (h : xs.all isLevel = true) : IsMatched xs := by
  induction xs with
  | nil => rfl
  | cons c xs ih =>
      obtain ⟨hc, hxs⟩ := Bool.and_eq_true_iff.1 h
      rw [IsMatched, Grouping.read, Grouping.step_of_isLevel hc]
      exact ih hxs

theorem isPrimary_of_isAtomic (h : xs.all isAtomic = true) : IsPrimary xs := by
  induction xs with
  | nil => exact ⟨rfl, fun c hc => absurd hc List.not_mem_nil⟩
  | cons c xs ih =>
      obtain ⟨hc, hxs⟩ := Bool.and_eq_true_iff.1 h
      obtain ⟨hlevel, hoperator⟩ := Bool.and_eq_true_iff.1 hc
      have hfirst : IsPrimary [c] := by
        refine ⟨isMatched_of_isLevel (by simp [hlevel]), fun d hd => ?_⟩
        rw [Grouping.outside, Grouping.step_of_isLevel hlevel] at hd
        rw [List.mem_singleton.1 hd]
        simpa using hoperator
      exact hfirst.append (ih hxs)

theorem isPrimary_of_forall {p : Char → Bool} (hxs : ∀ c ∈ xs, p c = true)
    (hp : ∀ c, p c = true → isAtomic c = true) : IsPrimary xs :=
  isPrimary_of_isAtomic (List.all_eq_true.2 fun c hc => hp c (hxs c hc))

/-- The characters of names join nothing. -/
theorem isAtomic_of_isNameChar (h : Naming.isNameChar c = true) : isAtomic c = true := by
  have hother : ∀ d ∈ ['|', '&'], c ≠ d := by
    rintro d hd rfl
    simp only [List.mem_cons, List.not_mem_nil, or_false] at hd
    rcases hd with rfl | rfl <;> exact absurd h (by decide)
  simp only [List.mem_cons, List.not_mem_nil, or_false, forall_eq_or_imp, forall_eq] at hother
  simp [isAtomic, isOperator, (isLevel_of_isNameChar h).1, hother]

theorem isAtomic_of_isNumeralChar (h : Decimal.isNumeralChar c = true) : isAtomic c = true := by
  simp only [Decimal.isNumeralChar, Bool.or_eq_true, decide_eq_true_eq] at h
  rcases h with h | h
  · exact isAtomic_of_isNameChar (by simp [Naming.isNameChar, Char.isAlphanum, h])
  · have hall : ['.', '-', '+', 'e'].all isAtomic = true := by decide
    exact List.all_eq_true.1 hall c h

/-! ## Brackets and strings -/

/-- What stands between brackets is primary, whatever operators it has. -/
theorem isPrimary_bracketed {opening closing : Char} (hbracket : closingOf? opening = some closing)
    (h : IsMatched xs) : IsPrimary (opening :: xs ++ [closing]) := by
  have hopen : ({} : Grouping).step opening = some { awaited := [closing] } := by
    unfold closingOf? at hbracket
    split at hbracket <;> cases hbracket <;> rfl
  have hclose : ({ awaited := [closing] } : Grouping).step closing = some {} := by
    unfold closingOf? at hbracket
    split at hbracket <;> cases hbracket <;> rfl
  have hoperator : isOperator opening = false := by
    unfold closingOf? at hbracket
    split at hbracket <;> cases hbracket <;> rfl
  have hinner : Grouping.read { awaited := [closing] } xs = some { awaited := [closing] } :=
    Grouping.read_within h [closing]
  constructor
  · rw [IsMatched, List.cons_append, Grouping.read, hopen, Option.bind_some, read_append hinner,
      Grouping.read, hclose]
    rfl
  · intro c hc
    have hnothing : Grouping.outside { awaited := [closing] } xs = [] :=
      Grouping.outside_within h (List.cons_ne_nil closing [])
    rw [List.cons_append, Grouping.outside, hopen, Option.elim_some, outside_append hinner,
      hnothing, Grouping.outside, hclose] at hc
    rw [List.mem_singleton.1 hc]
    exact hoperator

/-- A text that stays inside of a string. -/
structure IsHeld (mark : Char) (cs : List Char) : Prop where
  read : Grouping.read { quote := some mark } cs = some { quote := some mark }
  outside : Grouping.outside { quote := some mark } cs = []

variable {mark : Char}

theorem IsHeld.append (hxs : IsHeld mark xs) (hys : IsHeld mark ys) : IsHeld mark (xs ++ ys) where
  read := by rw [read_append hxs.read, hys.read]
  outside := by rw [outside_append hxs.read, hxs.outside, hys.outside, List.nil_append]

theorem IsHeld.flatMap {escape : Char → List Char} (h : ∀ c, IsHeld mark (escape c))
    (cs : List Char) : IsHeld mark (cs.flatMap escape) := by
  induction cs with
  | nil => exact ⟨rfl, rfl⟩
  | cons c cs ih => exact (h c).append ih

theorem isHeld_singleton (hmark : c ≠ mark) (hescape : c ≠ '\\') : IsHeld mark [c] := by
  have hstep : ({ quote := some mark } : Grouping).step c = some { quote := some mark } := by
    simp [Grouping.step, Grouping.quotedStep, hmark, hescape]
  constructor
  · rw [Grouping.read, hstep]
    rfl
  · rw [Grouping.outside, hstep]
    rfl

theorem isHeld_escaped (mark c : Char) : IsHeld mark ['\\', c] := ⟨rfl, rfl⟩

/-- A string literal is primary, whatever it holds. -/
theorem isPrimary_quoted (text : String) : IsPrimary (quoted text).toList := by
  have hchar : ∀ c, IsHeld '\'' (escapeChar c) := by
    intro c
    unfold escapeChar
    split
    · exact isHeld_escaped _ _
    · exact isHeld_escaped _ _
    · exact isHeld_escaped _ _
    · exact isHeld_escaped _ _
    · exact isHeld_singleton (by assumption) (by assumption)
  obtain ⟨hread, houtside⟩ := IsHeld.flatMap hchar text.toList
  rw [toList_quoted]
  have hopen : ({} : Grouping).step '\'' = some { quote := some '\'' } := rfl
  constructor
  · rw [IsMatched, Grouping.read, hopen, Option.bind_some, read_append hread]
    rfl
  · intro c hc
    rw [Grouping.outside, hopen, Option.elim_some, outside_append hread, houtside] at hc
    have hmark : c = '\'' := List.mem_singleton.1 hc
    rw [hmark]
    rfl

/-! ## Literals and keys -/

theorem isPrimary_number (n : Json.Number) : IsPrimary n.text.toList := by
  cases n with
  | int n =>
      exact isPrimary_of_forall (Decimal.isNumeral_intText n).isNumeralChar
        fun _ => isAtomic_of_isNumeralChar
  | float x =>
      rw [Json.Number.text]
      split
      · rename_i hfinite
        exact isPrimary_of_forall (Double.isNumeral_text hfinite _).isNumeralChar
          fun _ => isAtomic_of_isNumeralChar
      · exact isPrimary_of_isAtomic (by decide)

theorem isPrimary_literal {value : Json} (h : value.IsScalar) :
    IsPrimary (literal value).toList := by
  cases value with
  | string s => exact isPrimary_quoted s
  | number n => exact isPrimary_number n
  | bool value => cases value <;> exact isPrimary_of_isAtomic (by decide)
  | null => cases h
  | array items => cases h
  | object members => cases h

theorem isPrimary_identifier {name : String} (h : isIdentifier name = true) :
    IsPrimary name.toList :=
  isPrimary_of_forall (Lexer.isNameChar_of_isIdentifier h) fun _ => isAtomic_of_isNameChar

theorem isPrimary_propertyKey (name : String) : IsPrimary (propertyKey name).toList := by
  unfold propertyKey
  split
  · rename_i hname
    exact isPrimary_identifier hname
  · exact isPrimary_quoted name

end Script

end TypedClient
