import TypedClient.Yaml.Token

/-!
# Token streams

Text is cut into tokens from left to right. Blocks are told by indentation: a
token further to the left closes every block that starts to its right. Whether
something is a key shows only at the colon behind it, which has to stand on the same
line and not too far away. So a place is left open in front of everything that may
be a key, and filled when the colon comes.
-/

namespace TypedClient.Yaml

/-- The farthest that a colon stands behind the start of its key. -/
def maxKeyLength : Nat := 1024

/-- A place in the stream: a token, or room for what a key needs in front of it. -/
inductive Slot where
  | token (token : Token)
  | room (number : Nat)
deriving Repr, Inhabited

/-- Something that may be a key. -/
structure PossibleKey where
  /-- The number of the room in front of it. -/
  room : Nat
  /-- Whether nothing but a key can stand there. -/
  required : Bool
  start : Cursor
deriving Repr, Inhabited

/-- The scanner between two tokens. -/
structure Scanner where
  cursor : Cursor
  /-- What has been found so far, in reverse. -/
  slots : List Slot := []
  /-- The rooms that have been filled, and whether a mapping starts there as well. -/
  filled : List (Nat × Bool) := []
  /-- The number of rooms so far. -/
  rooms : Nat := 0
  /-- How many brackets are open. -/
  level : Nat := 0
  /-- The column of the innermost block, and those of the blocks around it. -/
  indent : Int := -1
  outer : List Int := []
  /-- Whether a key may start here. -/
  keyAllowed : Bool := true
  /-- For each open bracket and for the text around them, what may be a key. -/
  keys : List (Option PossibleKey) := [none]
deriving Repr, Inhabited

namespace Scanner

/-- Whether the cursor is inside brackets. -/
def inFlow (s : Scanner) : Bool := 0 < s.level

/-- Adds a token. -/
def emit (s : Scanner) (t : Token) : Scanner := { s with slots := .token t :: s.slots }

/-- Takes some characters. -/
def skip (s : Scanner) (n : Nat) : Scanner := { s with cursor := s.cursor.advance n }

/-- Allows or forbids a key at the cursor. -/
def allowKey (s : Scanner) (allowed : Bool) : Scanner := { s with keyAllowed := allowed }

/-- The place behind blanks and a comment. Tabs may not indent a block. -/
def behindBlanks (s : Scanner) : Cursor :=
  let c := s.cursor
  let c := if c.column = 0 ∧ c.rest.head? = some '\ufeff' then c.advance 1 else c
  let isSpace (b : Char) : Bool := b == ' ' || (b == '\t' && (s.inFlow || !s.keyAllowed))
  let c := c.advance (c.rest.takeWhile isSpace).length
  if c.rest.head? = some '#' then c.advance (c.rest.takeWhile (!isBreak ·)).length else c

/-- Leaves out blanks, comments and line breaks. Behind a line break a key may start. -/
def toToken (s : Scanner) : Scanner :=
  match s.behindBlanks.afterBreak? with
  | none => { s with cursor := s.behindBlanks }
  | some (_, next) =>
    if next.rest.length < s.cursor.rest.length then
      toToken { s with cursor := next, keyAllowed := s.keyAllowed || !s.inFlow }
    else { s with cursor := next }
termination_by s.cursor.rest.length

/-- Gives up a possible key, unless it is required. -/
def giveUp? : Option PossibleKey → Option (Option PossibleKey)
  | some key => if key.required then none else some none
  | none => some none

/-- Whether a possible key is too far away for a colon at the cursor. -/
def isStale (c : Cursor) (key : PossibleKey) : Bool :=
  key.start.line < c.line || key.start.index + maxKeyLength < c.index

/-- Gives up the possible keys that are too far away. -/
def dropStale? (s : Scanner) : Option Scanner := do
  let keys ← s.keys.mapM fun key =>
    if key.any (isStale s.cursor) then giveUp? key else some key
  return { s with keys := keys }

/-- Gives up the innermost possible key. -/
def dropKey? (s : Scanner) : Option Scanner :=
  match s.keys with
  | [] => some s
  | key :: keys => (giveUp? key).map fun key => { s with keys := key :: keys }

/-- Notes that what starts at the cursor may be a key. -/
def noteKey? (s : Scanner) : Option Scanner := do
  if !s.keyAllowed then return s
  let s ← s.dropKey?
  let key : PossibleKey :=
    { room := s.rooms
      required := !s.inFlow && s.indent == Int.ofNat s.cursor.column
      start := s.cursor }
  return { s with
    keys := some key :: s.keys.drop 1
    rooms := s.rooms + 1
    slots := .room s.rooms :: s.slots }

/-- Whether a block at a column lies inside the innermost one. -/
def isDeeper (s : Scanner) (column : Nat) : Bool := !s.inFlow && s.indent < Int.ofNat column

/-- Enters a block at a column. -/
def push (s : Scanner) (column : Nat) : Scanner :=
  { s with indent := Int.ofNat column, outer := s.indent :: s.outer }

/-- Enters a block at the cursor if it lies inside the innermost one. -/
def enter (s : Scanner) (start : Token) : Scanner :=
  if s.isDeeper s.cursor.column then (s.push s.cursor.column).emit start else s

/-- Leaves the blocks to the right of a column, from the innermost one. -/
def leaveFrom (column : Int) (s : Scanner) : List Int → Scanner
  | [] => s
  | outer :: rest =>
    if column < s.indent then
      leaveFrom column { s.emit .blockEnd with indent := outer, outer := rest } rest
    else s

/-- Leaves the blocks to the right of a column. -/
def leave (s : Scanner) (column : Int) : Scanner :=
  if s.inFlow then s else leaveFrom column s s.outer

/-- Takes a token that the given reader reads. -/
def read? (s : Scanner) (scan : Scan Token) : Option Scanner := do
  let (token, cursor) ← scan s.cursor
  return { s with cursor := cursor }.emit token

/-- The end of the text. -/
def finish? (s : Scanner) : Option Scanner := do (s.leave (-1)).dropKey?

/-- A directive. -/
def directive? (s : Scanner) : Option Scanner := do
  (← (s.leave (-1)).dropKey?).allowKey false |>.read? Token.directive

/-- The mark at the start or the end of a document. -/
def documentMark? (s : Scanner) (t : Token) : Option Scanner := do
  return ((← (s.leave (-1)).dropKey?).allowKey false).emit t |>.skip 3

/-- An opening bracket. What starts with it may be a key. -/
def openBracket? (s : Scanner) (t : Token) : Option Scanner := do
  let s ← s.noteKey?
  return ({ s with level := s.level + 1, keys := none :: s.keys }.allowKey true).emit t |>.skip 1

/-- A closing bracket. -/
def closeBracket? (s : Scanner) (t : Token) : Option Scanner := do
  let s ← s.dropKey?
  let s := if s.inFlow then { s with level := s.level - 1, keys := s.keys.drop 1 } else s
  return (s.allowKey false).emit t |>.skip 1

/-- A comma between brackets. -/
def comma? (s : Scanner) : Option Scanner := do
  return ((← s.dropKey?).allowKey true).emit .flowEntry |>.skip 1

/-- The dash in front of an item. -/
def dash? (s : Scanner) : Option Scanner := do
  if !s.inFlow && !s.keyAllowed then failure
  return ((← (s.enter .blockSequenceStart).dropKey?).allowKey true).emit .blockEntry |>.skip 1

/-- The question mark in front of a key. -/
def questionMark? (s : Scanner) : Option Scanner := do
  if !s.inFlow && !s.keyAllowed then failure
  return ((← (s.enter .blockMappingStart).dropKey?).allowKey (!s.inFlow)).emit .key |>.skip 1

/-- The colon in front of a value. If there is something before it that may be a key, that is its
key. -/
def colon? (s : Scanner) : Option Scanner := do
  let s ← match s.keys with
    | some key :: keys =>
      let column := key.start.column
      let opens := s.isDeeper column
      let s := if opens then s.push column else s
      pure { s with filled := (key.room, opens) :: s.filled, keys := none :: keys,
                    keyAllowed := false }
    | _ =>
      if !s.inFlow && !s.keyAllowed then failure
      pure ((s.enter .blockMappingStart).allowKey (!s.inFlow))
  return s.emit .value |>.skip 1

/-- Something that may be a key, and behind which no other key starts. -/
def simple? (s : Scanner) (scan : Scan Token) : Option Scanner := do
  ((← s.noteKey?).allowKey false).read? scan

/-- A block scalar. Behind it a key may start. -/
def block? (s : Scanner) (folded : Bool) : Option Scanner := do
  ((← s.dropKey?).allowKey true).read? (Token.block folded s.indent)

/-- A plain scalar. If line breaks follow it, a key may start behind them. -/
def plain? (s : Scanner) : Option Scanner := do
  let s ← s.noteKey?
  let ((token, breaksFollow), cursor) ← Token.plain s.inFlow s.indent s.cursor
  return { s with cursor := cursor, keyAllowed := breaksFollow }.emit token

/-- The characters that mean something of their own where a token starts. -/
def isIndicator (c : Char) : Bool := "-?:,[]{}#&*!|>'\"%@\x60".toList.contains c

/-- Whether a plain scalar may start with a character, given what follows it. -/
def startsPlain (inFlow : Bool) (c : Char) (next : List Char) : Bool :=
  !isIndicator c || (c == '-' && !next.head?.any isBlank) ||
    (!inFlow && (c == '?' || c == ':') && !endsWord next)

/-- Takes the next token of which the first character is given. -/
def token? (s : Scanner) (c : Char) (next : List Char) : Option Scanner :=
  if s.cursor.column = 0 ∧ c = '%' then s.directive?
  else if s.cursor.atDocumentMark then
    s.documentMark? (if c = '-' then .documentStart else .documentEnd)
  else if c = '[' then s.openBracket? .flowSequenceStart
  else if c = '\x7b' then s.openBracket? .flowMappingStart
  else if c = ']' then s.closeBracket? .flowSequenceEnd
  else if c = '\x7d' then s.closeBracket? .flowMappingEnd
  else if c = ',' then s.comma?
  else if c = '-' ∧ endsWord next then s.dash?
  else if c = '?' ∧ (s.inFlow ∨ endsWord next) then s.questionMark?
  else if c = ':' ∧ (s.inFlow ∨ endsWord next) then s.colon?
  else if c = '*' then s.simple? (return .alias (← Token.anchorName))
  else if c = '&' then s.simple? (return .anchor (← Token.anchorName))
  else if c = '!' then s.simple? (Token.scanTag s.inFlow)
  else if c = '|' ∧ !s.inFlow then s.block? false
  else if c = '>' ∧ !s.inFlow then s.block? true
  else if c = '\'' then s.simple? (Token.quoted '\'' Token.singleChar)
  else if c = '"' then s.simple? (Token.quoted '"' Token.doubleChar)
  else if startsPlain s.inFlow c next then s.plain?
  else none

/-- Takes all tokens. Every token takes a character. -/
def run? (s : Scanner) : Option Scanner := do
  let s' := s.toToken
  let s' ← s'.dropStale?
  let s' := s'.leave (Int.ofNat s'.cursor.column)
  match s'.cursor.rest with
  | [] => s'.finish?
  | c :: next =>
    let s' ← s'.token? c next
    if s'.cursor.rest.length < s.cursor.rest.length then run? s' else none
termination_by s.cursor.rest.length

/-- What a slot holds in the end. -/
def contents (filled : List (Nat × Bool)) : Slot → List Token
  | .token t => [t]
  | .room n =>
    match filled.lookup n with
    | some true => [.blockMappingStart, .key]
    | some false => [.key]
    | none => []

end Scanner

/-- The tokens of a text. -/
def Token.ofText? (cs : List Char) : Option (List Token) := do
  if !cs.all isAllowed then failure
  let s ← Scanner.run? { cursor := { rest := cs } }
  return s.slots.reverse.flatMap (Scanner.contents s.filled)

end TypedClient.Yaml
