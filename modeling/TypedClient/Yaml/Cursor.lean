import TypedClient.Text.Reader

/-!
# Places in YAML text

A cursor is a place in a text, with the number of characters, lines and columns
before it. Blanks are spaces and tabs; a line break may be written in five ways.
-/

namespace TypedClient.Yaml

/-- The separator of lines of Unicode. -/
def lineSeparator : Char := '\u2028'

/-- The separator of paragraphs of Unicode. -/
def paragraphSeparator : Char := '\u2029'

/-- The characters that break a line. -/
def isBreak (c : Char) : Bool :=
  c == '\n' || c == '\r' || c == '\u0085' || c == lineSeparator || c == paragraphSeparator

/-- The blanks within a line. -/
def isBlank (c : Char) : Bool := c == ' ' || c == '\t'

/-- Whether a blank, a line break or the end of the text comes next. -/
def endsWord (cs : List Char) : Bool := cs.head?.all fun c => isBlank c || isBreak c

/-- Whether a line break or the end of the text comes next. -/
def endsLine (cs : List Char) : Bool := cs.head?.all isBreak

/-- The characters of names. -/
def isNameChar (c : Char) : Bool := c.isAlphanum || c == '_' || c == '-'

/-- The characters that a text may hold: all but most control characters. -/
def isAllowed (c : Char) : Bool :=
  c == '\t' || c == '\n' || c == '\r' || (' ' ≤ c && c ≤ '~') || c == '\u0085' ||
    ('\u00a0' ≤ c && c ≤ '\ufffd') || '\uffff' < c

/-- A place in a text: what follows it, and what has gone before. -/
structure Cursor where
  rest : List Char
  index : Nat := 0
  line : Nat := 0
  column : Nat := 0
deriving Repr, Inhabited

namespace Cursor

/-- The place some characters of the same line further on. -/
def advance (c : Cursor) (n : Nat) : Cursor :=
  { c with rest := c.rest.drop n, index := c.index + n, column := c.column + n }

/-- The place behind a line break, and the character that the break stands for. -/
def afterBreak? (c : Cursor) : Option (Char × Cursor) :=
  let next (length : Nat) (rest : List Char) : Cursor :=
    { rest := rest, index := c.index + length, line := c.line + 1, column := 0 }
  match c.rest with
  | '\r' :: '\n' :: rest => some ('\n', next 2 rest)
  | b :: rest =>
    if b = lineSeparator ∨ b = paragraphSeparator then some (b, next 1 rest)
    else if isBreak b then some ('\n', next 1 rest)
    else none
  | [] => none

/-- Whether a mark that starts or ends a document stands at a place. -/
def atDocumentMark (c : Cursor) : Bool :=
  c.column == 0 && (c.rest.take 3 == ['-', '-', '-'] || c.rest.take 3 == ['.', '.', '.']) &&
    endsWord (c.rest.drop 3)

end Cursor

/-- A reader that keeps track of its place. -/
abbrev Scan (α : Type) := StateT Cursor Option α

namespace Scan

/-- What follows the place. -/
def rest : Scan (List Char) := return (← get).rest

/-- Goes on by some characters of the same line. -/
def skip (n : Nat) : Scan Unit := modify (·.advance n)

/-- Takes the characters of the same line up to the first one outside `p`. -/
def takeWhile (p : Char → Bool) : Scan (List Char) := do
  let cs := (← rest).takeWhile fun c => p c && !isBreak c
  skip cs.length
  return cs

/-- Takes the given character. -/
def expect (c : Char) : Scan Unit := do
  if (← rest).head? != some c then failure
  skip 1

/-- Takes a line break, if there is one. -/
def takeBreak : Scan (Option Char) := fun c =>
  match c.afterBreak? with
  | some (b, next) => some (some b, next)
  | none => some (none, c)

/-- Reads as long as the reader gives values. -/
def many {α : Type} (read : Scan (Option α)) : Scan (List α) :=
  Text.readMany (fun c => c.rest.length) read

/-- Takes blanks and a comment up to the end of the line. -/
def endLine : Scan Unit := do
  let _ ← takeWhile isBlank
  if (← rest).head? == some '#' then
    let _ ← takeWhile fun _ => true
  if !endsLine (← rest) then failure
  let _ ← takeBreak

end Scan

end TypedClient.Yaml
