import TypedClient.Text.Digit
import TypedClient.Yaml.Cursor

/-!
# Tokens of YAML

The lexical elements of YAML text, and how those with contents of their own are
read: scalars in their four styles, names, tags and directives. A scalar of several
lines is folded: a single line break becomes a space, and of several breaks the
first one is dropped.
-/

namespace TypedClient.Yaml

/-- The lexical elements. -/
inductive Token where
  | version (major minor : Nat)
  | shorthand (handle expansion : String)
  | documentStart
  | documentEnd
  | blockSequenceStart
  | blockMappingStart
  | blockEnd
  | flowSequenceStart
  | flowSequenceEnd
  | flowMappingStart
  | flowMappingEnd
  | blockEntry
  | flowEntry
  | key
  | value
  | alias (name : String)
  | anchor (name : String)
  | tag (handle suffix : String)
  | scalar (text : String) (plain : Bool)
deriving DecidableEq, Repr, Inhabited

namespace Token

open Scan

/-! ## Folding -/

/-- What stands between two words of a scalar: blanks, and the line breaks behind them. -/
structure Gap where
  blanks : List Char
  breaks : List Char

/-- The text that a gap stands for. -/
def Gap.text (g : Gap) : List Char :=
  match g.breaks with
  | [] => g.blanks
  | ['\n'] => [' ']
  | '\n' :: others => others
  | breaks => breaks

/-- Takes the blanks that start a line. A tab must not stand before the given column. -/
def lineBlanks (indent : Int) : Scan Unit := do
  let column := (← get).column
  let blanks ← takeWhile isBlank
  if blanks.zipIdx.any fun (c, i) => c == '\t' && Int.ofNat (column + i) < indent then failure

/-- Takes the blanks and line breaks behind a word. -/
def gap (indent : Int) : Scan Gap := do
  let blanks ← takeWhile isBlank
  let breaks ← many do
    match ← takeBreak with
    | some b =>
      lineBlanks indent
      return some b
    | none => return none
  return { blanks := blanks, breaks := breaks }

/-! ## Quoted scalars -/

/-- The character that an escape of one letter stands for. -/
def escaped? : Char → Option Char
  | '0' => some (Char.ofNat 0)
  | 'a' => some (Char.ofNat 7)
  | 'b' => some (Char.ofNat 8)
  | 't' => some '\t'
  | '\t' => some '\t'
  | 'n' => some '\n'
  | 'v' => some (Char.ofNat 11)
  | 'f' => some (Char.ofNat 12)
  | 'r' => some '\r'
  | 'e' => some (Char.ofNat 27)
  | ' ' => some ' '
  | '"' => some '"'
  | '/' => some '/'
  | '\\' => some '\\'
  | 'N' => some '\u0085'
  | '_' => some '\u00a0'
  | 'L' => some lineSeparator
  | 'P' => some paragraphSeparator
  | _ => none

/-- The number of digits of an escape that gives the number of a character. -/
def escapeLength? : Char → Option Nat
  | 'x' => some 2
  | 'u' => some 4
  | 'U' => some 8
  | _ => none

/-- The character of an escape, and how many characters it takes behind the backslash. -/
def escape? : List Char → Option (Char × Nat)
  | [] => none
  | c :: cs =>
    match escapeLength? c with
    | some n =>
      if (cs.take n).length = n then (Text.hexChar? (cs.take n)).map (·, n + 1) else none
    | none => (escaped? c).map (·, 1)

/-- The next character of a word in single quotes. -/
def singleChar : Scan (Option Char) := do
  match ← rest with
  | '\'' :: '\'' :: _ =>
    skip 2
    return some '\''
  | c :: _ =>
    if c == '\'' || isBlank c || isBreak c then return none
    skip 1
    return some c
  | [] => return none

/-- The next character of a word in double quotes. -/
def doubleChar : Scan (Option Char) := do
  match ← rest with
  | '\\' :: cs =>
    if cs.head?.any isBreak then return none
    match escape? cs with
    | some (c, length) =>
      skip (length + 1)
      return some c
    | none => failure
  | c :: _ =>
    if c == '"' || isBlank c || isBreak c then return none
    skip 1
    return some c
  | [] => return none

/-- The next word of a quoted scalar with the text behind it; nothing at the closing quote. A
backslash at the end of a line takes back the line break. -/
def quotedPart (quote : Char) (char : Scan (Option Char)) : Scan (Option (List Char)) := do
  if (← get).atDocumentMark then failure
  match (← rest).head? with
  | none => failure
  | some c =>
    if c == quote then return none
    let word ← many char
    if (← rest).head? == some '\\' then
      skip 1
      let _ ← takeBreak
      return some (word ++ (← gap 0).breaks)
    else return some (word ++ (← gap 0).text)

/-- A scalar in quotes. -/
def quoted (quote : Char) (char : Scan (Option Char)) : Scan Token := do
  expect quote
  let parts ← many (quotedPart quote char)
  expect quote
  return .scalar (String.ofList parts.flatten) false

/-! ## Plain scalars -/

/-- The punctuation of collections in brackets. -/
def isFlowIndicator (c : Char) : Bool :=
  c == ',' || c == '[' || c == ']' || c == '\x7b' || c == '\x7d'

/-- The next character of a plain word. -/
def plainChar (inFlow : Bool) : Scan (Option Char) := do
  match ← rest with
  | ':' :: cs =>
    if inFlow && cs.head?.any (fun c => isFlowIndicator c || c == '?') then failure
    if endsWord cs then return none
    skip 1
    return some ':'
  | c :: _ =>
    if isBlank c || isBreak c || (inFlow && isFlowIndicator c) then return none
    skip 1
    return some c
  | [] => return none

/-- The next word of a plain scalar, and the gap behind it; nothing where the scalar ends. -/
def plainPart (inFlow : Bool) (indent : Int) : Scan (Option (List Char × Gap)) := do
  let c ← get
  if c.atDocumentMark || c.rest.head? == some '#' then return none
  match ← many (plainChar inFlow) with
  | [] => return none
  | word => return some (word, ← gap indent)

/-- The words of a plain scalar with the text between them; the last gap does not belong to it. -/
def joinWords : List (List Char × Gap) → List Char
  | [] => []
  | [(word, _)] => word
  | (word, gap) :: rest => word ++ gap.text ++ joinWords rest

/-- A plain scalar inside something of the given indentation, and whether line breaks follow it.
Its lines have to be indented further. -/
def plain (inFlow : Bool) (indent : Int) : Scan (Token × Bool) := do
  match ← plainPart inFlow (indent + 1) with
  | none => failure
  | some first =>
    let others ← many do
      if !inFlow && Int.ofNat (← get).column < indent + 1 then return none
      plainPart inFlow (indent + 1)
    let words := first :: others
    let breaksFollow := words.getLast?.any fun (_, gap) => !gap.breaks.isEmpty
    return (.scalar (String.ofList (joinWords words)) true, breaksFollow)

/-! ## Block scalars -/

/-- What becomes of the line breaks at the end of a block scalar. -/
inductive Chomping where
  | strip
  | clip
  | keep
deriving DecidableEq, Repr, Inhabited

/-- A line of a block scalar, its own line break, and the breaks of the empty lines behind it. -/
structure BlockLine where
  text : List Char
  lineEnd : List Char
  emptyLines : List Char

/-- The chomping that a character asks for. -/
def chomping? : Char → Option Chomping
  | '+' => some .keep
  | '-' => some .strip
  | _ => none

/-- The indentation that a character asks for. -/
def indentationDigit? (c : Char) : Option Nat :=
  if c.isDigit then some (c.toNat - '0'.toNat) else none

/-- The part of a block scalar's header that one of the given kinds of characters makes up. -/
def headerPart {α : Type} (read : Char → Option α) : Scan (Option α) := do
  match (← rest).head?.bind read with
  | some a =>
    skip 1
    return some a
  | none => return none

/-- The header of a block scalar: how it ends, and how far it is indented, if that is said. -/
def blockHeader : Scan (Chomping × Option Nat) := do
  let before ← headerPart chomping?
  let indentation ← headerPart indentationDigit?
  let behind ← if before.isSome then pure none else headerPart chomping?
  if indentation == some 0 then failure
  endLine
  return ((before.or behind).getD .clip, indentation)

/-- Takes the spaces that start a line, at most up to a column. A tab must not stand before it. -/
def indentation (limit : Option Nat) : Scan Unit := do
  let c ← get
  let spaces := c.rest.takeWhile (· == ' ')
  skip (match limit with
    | some column => min spaces.length (column - c.column)
    | none => spaces.length)
  let c ← get
  if limit.all (c.column < ·) && c.rest.head? == some '\t' then failure

/-- Takes empty lines and the spaces that start the next one. Gives the line breaks, and the
furthest column that the spaces reach. -/
def emptyLines (limit : Option Nat) : Scan (List Char × Nat) := do
  let lines ← many do
    indentation limit
    let column := (← get).column
    match ← takeBreak with
    | some b => return some (b, column)
    | none => return none
  let column := (← get).column
  return (lines.map (·.1), (lines.map (·.2)).foldl max column)

/-- The next line of a block scalar; nothing where it ends. -/
def blockLine (indent : Nat) : Scan (Option BlockLine) := do
  let c ← get
  if c.column ≠ indent || c.rest.isEmpty then return none
  let text ← takeWhile fun _ => true
  let lineEnd ← takeBreak
  let (breaks, _) ← emptyLines (some indent)
  return some { text := text, lineEnd := lineEnd.toList, emptyLines := breaks }

/-- Whether a line starts with a blank. Such lines are never folded. -/
def startsBlank (line : List Char) : Bool := line.head?.any isBlank

/-- The text behind a line, up to the next one. -/
def betweenLines (folded : Bool) (line next : BlockLine) : List Char :=
  if folded && line.lineEnd == ['\n'] && !startsBlank line.text && !startsBlank next.text then
    if line.emptyLines.isEmpty then [' '] else line.emptyLines
  else line.lineEnd ++ line.emptyLines

/-- The lines of a block scalar, joined. -/
def joinLines (folded : Bool) (chomping : Chomping) : List BlockLine → List Char
  | [] => []
  | [line] =>
    line.text ++
      match chomping with
      | .strip => []
      | .clip => line.lineEnd
      | .keep => line.lineEnd ++ line.emptyLines
  | line :: next :: rest =>
    line.text ++ betweenLines folded line next ++ joinLines folded chomping (next :: rest)

/-- A block scalar inside something of the given indentation. Without an indication its first
line says how far it is indented. -/
def block (folded : Bool) (outer : Int) : Scan Token := do
  skip 1
  let (chomping, indication) ← blockHeader
  let known := indication.map fun n => n + outer.toNat
  let (breaks, deepest) ← emptyLines known
  let indent := known.getD (max deepest (max 1 (outer + 1).toNat))
  let lines ← many (blockLine indent)
  let text := match lines with
    | [] => if chomping = .keep then breaks else []
    | lines => breaks ++ joinLines folded chomping lines
  return .scalar (String.ofList text) false

/-! ## Names, tags and directives -/

/-- The characters that may follow the name of an anchor. -/
def endsAnchor (cs : List Char) : Bool :=
  endsWord cs || cs.head?.any fun c =>
    c == '?' || c == ':' || c == ',' || c == ']' || c == '\x7d' || c == '%' || c == '@' ||
      c == '\x60'

/-- The name of an anchor or alias. -/
def anchorName : Scan String := do
  skip 1
  let name ← takeWhile isNameChar
  if name.isEmpty || !endsAnchor (← rest) then failure
  return String.ofList name

/-- The characters of addresses; some only between angle brackets. -/
def isUriChar (verbatim : Bool) (c : Char) : Bool :=
  isNameChar c || ";/?:@&=+$.!~*'()".toList.contains c || (verbatim && ",[]".toList.contains c)

/-- The byte of an escape in an address. -/
def uriByte : Scan UInt8 := do
  match ← rest with
  | '%' :: a :: b :: _ =>
    match Text.number? 16 [a, b] with
    | some n =>
      skip 3
      return UInt8.ofNat n
    | none => failure
  | _ => failure

/-- The number of bytes of a character with the given first byte. -/
def encodedLength (first : UInt8) : Nat :=
  if first < 0x80 then 1
  else if first < 0xE0 then 2
  else if first < 0xF0 then 3
  else 4

/-- A character that is given by the bytes of its encoding. -/
def uriEscape : Scan (List Char) := do
  let first ← uriByte
  let others ← (List.range (encodedLength first - 1)).mapM fun _ => uriByte
  match String.fromUTF8? ⟨(first :: others).toArray⟩ with
  | some s => return s.toList
  | none => failure

/-- An address. -/
def uri (verbatim : Bool) : Scan (List Char) := do
  let parts ← many do
    match (← rest).head? with
    | some '%' => return some (← uriEscape)
    | some c =>
      if isUriChar verbatim c then
        skip 1
        return some [c]
      else return none
    | none => return none
  return parts.flatten

/-- The handle of a tag: a mark, and a name up to another mark if there is one. -/
def tagHandle : Scan (List Char) := do
  expect '!'
  let name ← takeWhile isNameChar
  if (← rest).head? == some '!' then
    skip 1
    return '!' :: name ++ ['!']
  else return '!' :: name

/-- The handle and the suffix of a tag. -/
def tagParts : Scan (String × String) := do
  match ← rest with
  | '!' :: '<' :: _ =>
    skip 2
    let suffix ← uri true
    expect '>'
    if suffix.isEmpty then failure
    return ("", String.ofList suffix)
  | _ =>
    let handle ← tagHandle
    let suffix ← uri false
    if handle.length > 1 && handle.getLast? == some '!' then
      if suffix.isEmpty then failure
      return (String.ofList handle, String.ofList suffix)
    else
      match handle.drop 1 ++ suffix with
      | [] => return ("", "!")
      | suffix => return ("!", String.ofList suffix)

/-- A tag. -/
def scanTag (inFlow : Bool) : Scan Token := do
  let (handle, suffix) ← tagParts
  let cs ← rest
  if !(endsWord cs || (inFlow && cs.head? == some ',')) then failure
  return .tag handle suffix

/-- The longest number of a version. -/
def maxVersionDigits : Nat := 9

/-- A number of a version. -/
def versionNumber : Scan Nat := do
  let digits ← takeWhile Char.isDigit
  if digits.isEmpty || maxVersionDigits < digits.length then failure
  StateT.lift (Text.number? 10 digits)

/-- The value of a directive that names the version. -/
def versionValue : Scan Token := do
  let _ ← takeWhile isBlank
  let major ← versionNumber
  expect '.'
  return .version major (← versionNumber)

/-- The value of a directive that explains a handle of tags. -/
def tagHandleValue : Scan Token := do
  let _ ← takeWhile isBlank
  let handle ← tagHandle
  if handle.getLast? != some '!' then failure
  if (← takeWhile isBlank).isEmpty then failure
  let expansion ← uri true
  if expansion.isEmpty || !endsWord (← rest) then failure
  return .shorthand (String.ofList handle) (String.ofList expansion)

/-- A directive, with the rest of its line. -/
def directive : Scan Token := do
  skip 1
  let name ← takeWhile isNameChar
  if !endsWord (← rest) then failure
  let token ← match String.ofList name with
    | "YAML" => versionValue
    | "TAG" => tagHandleValue
    | _ => failure
  endLine
  return token

end Token

end TypedClient.Yaml
