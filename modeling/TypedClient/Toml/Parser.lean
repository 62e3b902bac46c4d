import TypedClient.Text.Reader
import TypedClient.Toml.Scalar
import TypedClient.Toml.Table

/-!
# Reading TOML

A text is read line by line: a line holds a header, a key with its value, or
nothing, and a comment may end it. The keys of a line belong to the table of the
last header. A text is refused if it has another form or defines anything twice.
-/

namespace TypedClient.Toml

open Text (Reader)

/-- The blanks within a line. -/
def isBlank (c : Char) : Bool := c == ' ' || c == '\t'

/-- The characters of comments and of literal strings: all but control characters. -/
def isPlain (c : Char) : Bool := c == '\t' || (' ' ≤ c && c != '\x7f')

/-- The characters of bare keys. -/
def isKeyChar (c : Char) : Bool := c.isAlphanum || c == '_' || c == '-'

/-- The characters of words. -/
def isWordChar (c : Char) : Bool := isKeyChar c || c == '+' || c == '.' || c == ':'

/-- Leaves out the blanks. -/
def skipBlanks : Reader Unit := .skipWhile isBlank

/-- Leaves out a comment, if there is one. -/
def skipComment : Reader Unit
  | '#' :: cs => some ((), cs.dropWhile isPlain)
  | cs => some ((), cs)

/-- The text behind a line end, if the text starts with one. -/
def afterBreak? : List Char → Option (List Char)
  | '\n' :: cs => some cs
  | '\r' :: '\n' :: cs => some cs
  | _ => none

/-- Takes a line end if the text goes on with one. -/
def acceptBreak : Reader Bool := fun cs =>
  match afterBreak? cs with
  | some rest => some (true, rest)
  | none => some (false, cs)

/-- Leaves out blanks and line ends. -/
def skipSpace : Reader Unit := do
  let _ ← Reader.many do
    skipBlanks
    return if ← acceptBreak then some () else none

/-- Leaves out blanks, comments and line ends. -/
def skipLines : Reader Unit := do
  let _ ← Reader.many do
    skipBlanks
    skipComment
    return if ← acceptBreak then some () else none

/-- The character that a one-letter escape stands for. -/
def escaped? : Char → Option Char
  | 'b' => some (Char.ofNat 8)
  | 't' => some '\t'
  | 'n' => some '\n'
  | 'f' => some (Char.ofNat 12)
  | 'r' => some '\r'
  | '"' => some '"'
  | '\\' => some '\\'
  | _ => none

/-- The character of an escape, behind its backslash. -/
def escape : Reader Char
  | 'u' :: cs => (Text.hexChar? (cs.take 4)).map (·, cs.drop 4)
  | 'U' :: cs => (Text.hexChar? (cs.take 8)).map (·, cs.drop 8)
  | c :: cs => (escaped? c).map (·, cs)
  | [] => none

/-- Up to two quotes before the three that end a string of several lines, and the text behind. -/
def closing? (quote : Char) (cs : List Char) : Option (List Char × List Char) :=
  let quotes := (cs.takeWhile (· == quote)).take 5
  if 3 ≤ quotes.length then some (quotes.drop 3, cs.drop quotes.length) else none

/-- The next part of a string in double quotes; nothing at its end. -/
def basicPart : Reader (Option (List Char))
  | '"' :: cs => some (none, cs)
  | '\\' :: cs => (escape cs).map fun (c, rest) => (some [c], rest)
  | c :: cs => if isPlain c then some (some [c], cs) else none
  | [] => none

/-- The next part of a string of several lines; nothing where the end begins. A backslash at the
end of a line takes back all blanks and line ends behind it. -/
def longPart : Reader (Option (List Char)) := fun cs =>
  if (closing? '"' cs).isSome then some (none, cs)
  else match cs with
    | '\\' :: rest =>
      match afterBreak? (rest.dropWhile isBlank) with
      | some rest => (skipSpace rest).map fun ((), rest) => (some [], rest)
      | none => (escape rest).map fun (c, rest) => (some [c], rest)
    | c :: rest =>
      match afterBreak? cs with
      | some rest => some (some ['\n'], rest)
      | none => if isPlain c then some (some [c], rest) else none
    | [] => none

/-- The next part of a literal string of several lines; nothing where the end begins. -/
def longLiteralPart : Reader (Option (List Char)) := fun cs =>
  if (closing? '\'' cs).isSome then some (none, cs)
  else match cs with
    | c :: rest =>
      match afterBreak? cs with
      | some rest => some (some ['\n'], rest)
      | none => if isPlain c then some (some [c], rest) else none
    | [] => none

/-- A string of several lines, behind its opening quotes. A line end there does not belong to
it. -/
def longString (quote : Char) (part : Reader (Option (List Char))) : Reader String := do
  let _ ← acceptBreak
  let parts ← Reader.many part
  let last ← fun cs => closing? quote cs
  return String.ofList (parts.flatten ++ last)

/-- A string in double quotes, behind the first one. -/
def basicString : Reader String := do
  return String.ofList (← Reader.many basicPart).flatten

/-- A string in single quotes, behind the first one. -/
def literalString : Reader String := do
  let cs ← Reader.takeWhile fun c => isPlain c && c != '\''
  Reader.expect '\''
  return String.ofList cs

/-- A string. -/
def quotedString : Reader String
  | '"' :: '"' :: '"' :: cs => longString '"' longPart cs
  | '\'' :: '\'' :: '\'' :: cs => longString '\'' longLiteralPart cs
  | '"' :: cs => basicString cs
  | '\'' :: cs => literalString cs
  | _ => none

/-- One part of a key. -/
def keyPart : Reader String
  | '"' :: cs => basicString cs
  | '\'' :: cs => literalString cs
  | cs =>
    match cs.takeWhile isKeyChar with
    | [] => none
    | name => some (String.ofList name, cs.dropWhile isKeyChar)

/-- How deep values nest at most, and how many parts a key has. -/
def maxDepth : Nat := 79

/-- A key: the path to its last part, and that part. -/
def key : Reader (List String × String) := do
  skipBlanks
  let first ← keyPart
  skipBlanks
  let others ← Reader.many do
    if ← Reader.accept ['.'] then
      skipBlanks
      let part ← keyPart
      skipBlanks
      return some part
    else return none
  let parts := first :: others
  if maxDepth < parts.length then failure
  return (parts.dropLast, parts.getLast?.getD first)

/-- A word. A time may follow a date behind a blank. -/
def word : Reader (List Char) := do
  let w ← Reader.takeWhile isWordChar
  if isDate w then fun
    | ' ' :: c :: cs =>
      if c.isDigit then
        some (w ++ ' ' :: (c :: cs).takeWhile isWordChar, (c :: cs).dropWhile isWordChar)
      else some (w, ' ' :: c :: cs)
    | cs => some (w, cs)
  else return w

/-- The items of an array, behind its opening bracket. -/
def arrayItems (value : Reader Json) : Reader (List Json) := do
  let items ← Reader.many do
    skipLines
    match ← Reader.peek? with
    | some ']' => return none
    | _ =>
      let item ← value
      skipLines
      match ← Reader.peek? with
      | some ']' => return some item
      | _ =>
        Reader.expect ','
        return some item
  Reader.expect ']'
  return items

/-- A key with its value. -/
def keyValue (value : Reader Json) : Reader (List String × String × Json) := do
  let (path, name) ← key
  Reader.expect '='
  skipBlanks
  return (path, name, ← value)

/-- The keys and values of an inline table, behind its opening brace. -/
def inlineEntries (value : Reader Json) : Reader (List (List String × String × Json)) := do
  skipBlanks
  match ← Reader.peek? with
  | some '\x7d' => return []
  | _ =>
    let first ← keyValue value
    let others ← Reader.many do
      skipBlanks
      if ← Reader.accept [','] then return some (← keyValue value) else return none
    return first :: others

/-- The object that an inline table stands for. -/
def inlineTable? (entries : List (List String × String × Json)) : Option Json :=
  (entries.foldlM (fun (t : Table) (path, name, v) => t.addValue? path name v)
    (Table.empty .declared)).map Table.toJson

/-- A value, given the reader of the values inside it. -/
def valueAround (inside : Reader Json) : Reader Json := do
  match ← Reader.peek? with
  | some '"' => return .string (← quotedString)
  | some '\'' => return .string (← quotedString)
  | some '[' =>
    let _ ← Reader.next
    return .array (← arrayItems inside)
  | some '\x7b' =>
    let _ ← Reader.next
    let entries ← inlineEntries inside
    Reader.expect '\x7d'
    StateT.lift (inlineTable? entries)
  | _ => StateT.lift (scalar? (← word))

/-- A value that nests at most so deep. -/
def value : Nat → Reader Json
  | 0 => do
    match ← Reader.peek? with
    | some '[' => failure
    | some '\x7b' => failure
    | _ => valueAround failure
  | depth + 1 => valueAround (value depth)

/-- What a line holds. -/
inductive Line where
  | blank
  | entry (path : List String) (name : String) (value : Json)
  | table (path : List String) (name : String)
  | tables (path : List String) (name : String)

/-- One line without its end. -/
def line : Reader Line := do
  skipBlanks
  let l ← fun cs => match cs with
    | '[' :: '[' :: cs => (do
        let (path, name) ← key
        Reader.expect ']'
        Reader.expect ']'
        return Line.tables path name : Reader Line) cs
    | '[' :: cs => (do
        let (path, name) ← key
        Reader.expect ']'
        return Line.table path name : Reader Line) cs
    | c :: _ =>
      if c == '#' || (afterBreak? cs).isSome then some (Line.blank, cs)
      else (do
        let (path, name, v) ← keyValue (value maxDepth)
        return Line.entry path name v : Reader Line) cs
    | [] => some (Line.blank, [])
  skipBlanks
  skipComment
  return l

/-- All lines. -/
def lines : Reader (List Line) := do
  let first ← line
  let others ← Reader.many do
    if ← acceptBreak then return some (← line) else return none
  return first :: others

/-- A document in the course of reading: what has been read, and the path to the table of the last
header. -/
structure Progress where
  root : Table
  current : List String

/-- Takes one line. -/
def Progress.step? (p : Progress) : Line → Option Progress
  | .blank => some p
  | .entry path name v =>
    (p.root.update? .implied (·.addValue? path name v) p.current).map fun root =>
      { p with root := root }
  | .table path name =>
    (p.root.addTable? path name).map fun root => ⟨root, path ++ [name]⟩
  | .tables path name =>
    (p.root.addToList? path name).map fun root => ⟨root, path ++ [name]⟩

/-- The text without the mark that may stand before it. -/
def dropMark : List Char → List Char
  | '\ufeff' :: cs => cs
  | cs => cs

/-- The object that a text denotes, if it is TOML. -/
def parse? (text : String) : Option Json := do
  let ls ← Reader.whole? lines (dropMark text.toList)
  let p ← ls.foldlM Progress.step? ⟨.empty .declared, []⟩
  return p.root.toJson

end TypedClient.Toml
