/-!
# Readers

A reader takes characters from the front of a text and gives a value, or it finds
that the text does not have the form that it reads. There is no way back: where two
forms are possible, the next characters decide between them. Repetition ends because
every round has to take a character.
-/

namespace TypedClient.Text

/-- A reader of values of type `α`. -/
abbrev Reader (α : Type) := StateT (List Char) Option α

/-- Reads as long as the reader gives values. Every round has to make the state smaller. -/
def readMany {σ α : Type} (size : σ → Nat) (read : StateT σ Option (Option α)) (s : σ) :
    Option (List α × σ) :=
  match read s with
  | none => none
  | some (none, last) => some ([], last)
  | some (some a, next) =>
    if size next < size s then
      (readMany size read next).map fun (as, last) => (a :: as, last)
    else none
termination_by size s

namespace Reader

/-- The next character, which is left where it is. -/
def peek? : Reader (Option Char) := fun cs => some (cs.head?, cs)

/-- The next character. -/
def next : Reader Char
  | [] => none
  | c :: cs => some (c, cs)

/-- Takes the given character. -/
def expect (c : Char) : Reader Unit
  | [] => none
  | d :: cs => if d = c then some ((), cs) else none

/-- Takes the given text if the text goes on with it. -/
def accept (pattern : List Char) : Reader Bool := fun cs =>
  if pattern.isPrefixOf cs then some (true, cs.drop pattern.length) else some (false, cs)

/-- Takes the characters up to the first one outside `p`. -/
def takeWhile (p : Char → Bool) : Reader (List Char) := fun cs =>
  some (cs.takeWhile p, cs.dropWhile p)

/-- Leaves out the characters up to the first one outside `p`. -/
def skipWhile (p : Char → Bool) : Reader Unit := fun cs => some ((), cs.dropWhile p)

/-- Reads as long as the reader gives values. -/
def many {α : Type} (read : Reader (Option α)) : Reader (List α) := readMany List.length read

/-- The value of a text that is read to its end. -/
def whole? {α : Type} (read : Reader α) (cs : List Char) : Option α :=
  match read cs with
  | some (a, []) => some a
  | _ => none

end Reader

end TypedClient.Text
