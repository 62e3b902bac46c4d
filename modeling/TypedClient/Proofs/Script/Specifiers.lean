import TypedClient.Naming.Identifier

/-!
# Module specifiers

A module names other modules by strings: behind `from`, behind `import`, and where `import` or
`require` is called. `Lexer` reads a module character by character and tells these strings from
those in the code, in comments and in templates; `specifiers` lists them as they are written.
Regular expressions are not told from divisions. A call of a member that is named `require` counts
as well.

Read `read_append` first: what a part of a text does depends on the state before it only.
-/

namespace TypedClient.Script

/-- The characters of words. Those beyond ASCII count as letters unless they are blank. -/
def isWordChar (c : Char) : Bool := Naming.isNameChar c || 128 ≤ c.toNat

/-- The characters that end a line comment. -/
def isLineEnd (c : Char) : Bool := c == '\n' || c == '\r' || c == '\u2028' || c == '\u2029'

/-- What stands before a place in the code. -/
inductive Before where
  /-- A word, its last letter first, and whether it has ended. -/
  | word (letters : List Char) (ended : Bool)
  /-- The parenthesis of a call that loads a module. -/
  | opened
  | other
deriving DecidableEq, Repr

namespace Before

/-- The words that a specifier follows. -/
def leadingWords : List (List Char) := [['f', 'r', 'o', 'm'], ['i', 'm', 'p', 'o', 'r', 't']]

/-- The functions that load a module. -/
def loadingWords : List (List Char) :=
  [['i', 'm', 'p', 'o', 'r', 't'], ['r', 'e', 'q', 'u', 'i', 'r', 'e']]

/-- Whether a string at this place is a specifier. -/
def leads : Before → Bool
  | .word letters _ => letters.reverse ∈ leadingWords
  | .opened => true
  | .other => false

/-- What a parenthesis opens at this place. -/
def opening : Before → Before
  | .word letters _ => if letters.reverse ∈ loadingWords then .opened else .other
  | _ => .other

/-- The place behind one more letter. -/
def letter (c : Char) : Before → Before
  | .word letters false => .word (c :: letters) false
  | _ => .word [c] false

/-- The place behind a blank or a comment. -/
def pause : Before → Before
  | .word letters _ => .word letters true
  | b => b

end Before

/-- The kinds of text. -/
inductive Mode where
  | code (before : Before)
  /-- Behind a slash in the code. -/
  | slash (before : Before)
  | lineComment (before : Before)
  | blockComment (before : Before) (star : Bool)
  /-- A string between double or single quotes; the characters of a specifier are kept. -/
  | quoted (double escaped : Bool) (specifier : Option (List Char))
  | template (escaped dollar : Bool)
deriving DecidableEq, Repr

/-- The state in which a module is read. -/
structure Lexer where
  mode : Mode := .code .other
  /-- The braces that are open in the code inside each open template, innermost first. -/
  depths : List Nat := []
  /-- Whether there was a line end inside a string. -/
  broken : Bool := false
deriving DecidableEq, Repr

namespace Lexer

/-- The state behind a closing brace in the code: the template again if its code is closed. -/
def closeBrace (q : Lexer) : Lexer :=
  match q.depths with
  | [] => { q with mode := .code .other }
  | 0 :: rest => { q with mode := .template false false, depths := rest }
  | (depth + 1) :: rest => { q with mode := .code .other, depths := depth :: rest }

/-- The state behind a character of the code. -/
def codeStep (q : Lexer) (b : Before) (c : Char) : Lexer :=
  if Text.isBlank c then { q with mode := .code b.pause }
  else if isWordChar c then { q with mode := .code (b.letter c) }
  else if c = '\'' ∨ c = '"' then
    { q with mode := .quoted (c == '"') false (if b.leads then some [] else none) }
  else if c = '\x60' then { q with mode := .template false false }
  else if c = '/' then { q with mode := .slash b }
  else if c = '(' then { q with mode := .code b.opening }
  else if c = '\x7b' then { q with mode := .code .other, depths := q.depths.modifyHead (· + 1) }
  else if c = '\x7d' then q.closeBrace
  else { q with mode := .code .other }

/-- The quote that ends a string. -/
def quote (double : Bool) : Char := if double then '"' else '\''

/-- The state behind a character. -/
def step (q : Lexer) (c : Char) : Lexer :=
  match q.mode with
  | .code b => q.codeStep b c
  | .slash b =>
    if c = '/' then { q with mode := .lineComment b.pause }
    else if c = '*' then { q with mode := .blockComment b.pause false }
    else q.codeStep .other c
  | .lineComment b => if isLineEnd c then { q with mode := .code b.pause } else q
  | .blockComment b star =>
    if star && c == '/' then { q with mode := .code b }
    else { q with mode := .blockComment b (c == '*') }
  | .quoted double escaped specifier =>
    if c = '\n' ∨ c = '\r' then
      { q with
        mode := if escaped then .quoted double false specifier else .code .other
        broken := true }
    else if !escaped && c == quote double then { q with mode := .code .other }
    else { q with mode := .quoted double (!escaped && c == '\\') (specifier.map (· ++ [c])) }
  | .template escaped dollar =>
    if escaped then { q with mode := .template false false }
    else if c = '\x60' then { q with mode := .code .other }
    else if dollar && c == '\x7b' then { q with mode := .code .other, depths := 0 :: q.depths }
    else { q with mode := .template (c == '\\') (c == '$') }

/-- The specifier that a character ends. -/
def found? (q : Lexer) (c : Char) : Option (List Char) :=
  match q.mode with
  | .quoted double false (some specifier) => if c = quote double then some specifier else none
  | _ => none

/-- The state behind a text, and the specifiers in it. -/
def read (q : Lexer) : List Char → Lexer × List (List Char)
  | [] => (q, [])
  | c :: cs => ((read (q.step c) cs).1, (q.found? c).toList ++ (read (q.step c) cs).2)

end Lexer

/-- The specifiers of a module, in order. -/
def specifiers (text : String) : List String :=
  (({} : Lexer).read text.toList).2.map String.ofList

namespace Lexer

variable {q : Lexer} {c : Char} {cs : List Char}

@[simp]
theorem read_nil (q : Lexer) : q.read [] = (q, []) := rfl

theorem read_cons (q : Lexer) (c : Char) (cs : List Char) :
    q.read (c :: cs) =
      (((q.step c).read cs).1, (q.found? c).toList ++ ((q.step c).read cs).2) := rfl

/-- A text is read in parts. -/
theorem read_append (q : Lexer) (xs ys : List Char) :
    q.read (xs ++ ys) =
      (((q.read xs).1.read ys).1, (q.read xs).2 ++ ((q.read xs).1.read ys).2) := by
  induction xs generalizing q with
  | nil => rfl
  | cons x xs ih => rw [List.cons_append, read_cons, ih, read_cons, List.append_assoc]

/-- A character that ends no specifier only changes the state. -/
theorem read_cons_of_found?_eq_none (h : q.found? c = none) (cs : List Char) :
    q.read (c :: cs) = (q.step c).read cs := by
  rw [read_cons, h, Option.toList_none, List.nil_append]

/-! ## Broken strings -/

theorem broken_closeBrace (q : Lexer) : q.closeBrace.broken = q.broken := by
  unfold closeBrace
  split <;> rfl

theorem broken_codeStep (q : Lexer) (b : Before) (c : Char) :
    (q.codeStep b c).broken = q.broken := by
  unfold codeStep
  repeat' split
  all_goals first | rfl | exact broken_closeBrace q

/-- A string that was broken stays so. -/
theorem broken_step (h : q.broken = true) (c : Char) : (q.step c).broken = true := by
  unfold step
  split
  · rw [broken_codeStep, h]
  · split
    · exact h
    · split
      · exact h
      · rw [broken_codeStep, h]
  · split <;> exact h
  · split <;> exact h
  · split
    · rfl
    · split <;> exact h
  · split
    · exact h
    · split
      · exact h
      · split <;> exact h

theorem broken_read (h : q.broken = true) (cs : List Char) : (q.read cs).1.broken = true := by
  induction cs generalizing q with
  | nil => exact h
  | cons c cs ih => exact ih (broken_step h c)

/-- Where no string is broken in a text, none was before. -/
theorem not_broken_of_read (h : (q.read cs).1.broken = false) : q.broken = false := by
  cases hbroken : q.broken with
  | false => rfl
  | true =>
      rw [broken_read hbroken] at h
      cases h

end Lexer

end TypedClient.Script
