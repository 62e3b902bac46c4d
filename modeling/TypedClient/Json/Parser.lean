import TypedClient.Json.Number
import TypedClient.Text.Digit

/-!
# Reading JSON text

Reading is done in two steps. The characters are cut into tokens; the tokens are
then taken one by one by an automaton whose stack holds the arrays and objects
that are still open. Texts that nest deeper than `maxDepth` are refused.
-/

namespace TypedClient.Json

/-- The lexical elements of JSON text. -/
inductive Token where
  | openArray
  | closeArray
  | openObject
  | closeObject
  | comma
  | colon
  | scalar (value : Json)
  | string (value : String)

namespace Token

/-- One element of a string: a character, or a UTF-16 unit given by its number. -/
inductive Piece where
  | char (c : Char)
  | unit (n : Nat)

/-- The character that a one-letter escape stands for. -/
def escaped? : Char → Option Char
  | '"' => some '"'
  | '\\' => some '\\'
  | '/' => some '/'
  | 'b' => some (Char.ofNat 8)
  | 'f' => some (Char.ofNat 12)
  | 'n' => some '\n'
  | 'r' => some '\r'
  | 't' => some '\t'
  | _ => none

/-- The pieces of a string up to its closing quote, and the text after it. -/
def pieces? (done : List Piece) : List Char → Option (List Piece × List Char)
  | [] => none
  | '"' :: rest => some (done.reverse, rest)
  | '\\' :: 'u' :: a :: b :: c :: d :: rest =>
    match Text.number? 16 [a, b, c, d] with
    | some n => pieces? (.unit n :: done) rest
    | none => none
  | '\\' :: c :: rest =>
    match escaped? c with
    | some e => pieces? (.char e :: done) rest
    | none => none
  | c :: rest => if c.toNat < 32 ∨ c = '\\' then none else pieces? (.char c :: done) rest

/-- The characters of a string. Two units that form a surrogate pair are one character; a
surrogate on its own is refused. -/
def characters? (done : List Char) : List Piece → Option (List Char)
  | [] => some done.reverse
  | .char c :: rest => characters? (c :: done) rest
  | .unit high :: .unit low :: rest =>
    if 0xD800 ≤ high ∧ high < 0xDC00 then
      if 0xDC00 ≤ low ∧ low < 0xE000 then
        characters? (Char.ofNat (0x10000 + (high - 0xD800) * 1024 + (low - 0xDC00)) :: done) rest
      else none
    else if 0xDC00 ≤ high ∧ high < 0xE000 then none
    else characters? (Char.ofNat high :: done) (.unit low :: rest)
  | .unit n :: rest =>
    if 0xD800 ≤ n ∧ n < 0xE000 then none else characters? (Char.ofNat n :: done) rest

/-- The string after an opening quote, and the text after it. -/
def string? (cs : List Char) : Option (String × List Char) := do
  let (pieces, rest) ← pieces? [] cs
  let chars ← characters? [] pieces
  return (String.ofList chars, rest)

/-- The digits after a point, if the text goes on with one. -/
def fraction? : List Char → Option (Option (List Char) × List Char)
  | '.' :: rest =>
    match rest.takeWhile Char.isDigit with
    | [] => none
    | digits => some (some digits, rest.dropWhile Char.isDigit)
  | rest => some (none, rest)

/-- The digits of an exponent. -/
def exponentDigits? (negative : Bool) (cs : List Char) :
    Option (Option (Bool × List Char) × List Char) :=
  match cs.takeWhile Char.isDigit with
  | [] => none
  | digits => some (some (negative, digits), cs.dropWhile Char.isDigit)

/-- The exponent, if the text goes on with one. -/
def exponent? : List Char → Option (Option (Bool × List Char) × List Char)
  | c :: rest =>
    if c = 'e' ∨ c = 'E' then
      match rest with
      | '+' :: rest => exponentDigits? false rest
      | '-' :: rest => exponentDigits? true rest
      | rest => exponentDigits? false rest
    else some (none, c :: rest)
  | [] => some (none, [])

/-- The number whose sign has been read, and the text after it. -/
def number? (negative : Bool) (cs : List Char) : Option (Number × List Char) := do
  let whole := cs.takeWhile Char.isDigit
  if whole.isEmpty || (whole.length > 1 && whole.head? == some '0') then failure
  let (fraction, rest) ← fraction? (cs.dropWhile Char.isDigit)
  let (exponent, rest) ← exponent? rest
  let n ← Number.ofDigits? negative whole fraction exponent
  return (n, rest)

/-- The first token of a text that starts with none of the blanks of JSON. -/
def next? : List Char → Option (Token × List Char)
  | '[' :: rest => some (.openArray, rest)
  | ']' :: rest => some (.closeArray, rest)
  | '\x7b' :: rest => some (.openObject, rest)
  | '\x7d' :: rest => some (.closeObject, rest)
  | ',' :: rest => some (.comma, rest)
  | ':' :: rest => some (.colon, rest)
  | '"' :: rest => (string? rest).map fun (s, rest) => (.string s, rest)
  | 'n' :: 'u' :: 'l' :: 'l' :: rest => some (.scalar .null, rest)
  | 't' :: 'r' :: 'u' :: 'e' :: rest => some (.scalar (.bool true), rest)
  | 'f' :: 'a' :: 'l' :: 's' :: 'e' :: rest => some (.scalar (.bool false), rest)
  | '-' :: rest => (number? true rest).map fun (n, rest) => (.scalar (.number n), rest)
  | cs => (number? false cs).map fun (n, rest) => (.scalar (.number n), rest)

/-- The blanks between tokens. -/
def isSpace (c : Char) : Bool := c == ' ' || c == '\n' || c == '\r' || c == '\t'

/-- The tokens of a text. Every token takes a character, so that the length of the text bounds
their number. -/
def scan? : Nat → List Token → List Char → Option (List Token)
  | 0, done, cs => if (cs.dropWhile isSpace).isEmpty then some done.reverse else none
  | fuel + 1, done, cs =>
    match cs.dropWhile isSpace with
    | [] => some done.reverse
    | cs => match next? cs with
      | some (token, rest) => scan? fuel (token :: done) rest
      | none => none

end Token

/-- An array or object that is still open: what it holds so far, the last item first, and for an
object the key whose value is due. -/
inductive Frame where
  | array (items : List Json)
  | object (members : List (String × Json)) (key : String)

/-- What may come next. -/
inductive Due where
  | value
  | valueOrEnd
  | key
  | keyOrEnd
  | colon
  | separator
  | nothing (result : Json)

/-- The automaton between two tokens. -/
structure Progress where
  frames : List Frame
  due : Due

/-- The deepest nesting that is read. -/
def maxDepth : Nat := 127

/-- Puts a finished value where it belongs. -/
def Progress.deliver (value : Json) : List Frame → Progress
  | [] => ⟨[], .nothing value⟩
  | .array items :: frames => ⟨.array (value :: items) :: frames, .separator⟩
  | .object members key :: frames =>
    ⟨.object (setMember key value members) key :: frames, .separator⟩

/-- Opens an array or object. -/
def Progress.enter? (frames : List Frame) (frame : Frame) (due : Due) : Option Progress :=
  if frames.length < maxDepth then some ⟨frame :: frames, due⟩ else none

/-- Takes one token. -/
def Progress.step? (p : Progress) (token : Token) : Option Progress :=
  match p.due, token, p.frames with
  | .value, .openArray, frames => enter? frames (.array []) .valueOrEnd
  | .valueOrEnd, .openArray, frames => enter? frames (.array []) .valueOrEnd
  | .value, .openObject, frames => enter? frames (.object [] "") .keyOrEnd
  | .valueOrEnd, .openObject, frames => enter? frames (.object [] "") .keyOrEnd
  | .value, .scalar v, frames => some (deliver v frames)
  | .valueOrEnd, .scalar v, frames => some (deliver v frames)
  | .value, .string s, frames => some (deliver (.string s) frames)
  | .valueOrEnd, .string s, frames => some (deliver (.string s) frames)
  | .valueOrEnd, .closeArray, .array items :: frames =>
    some (deliver (.array items.reverse) frames)
  | .separator, .closeArray, .array items :: frames =>
    some (deliver (.array items.reverse) frames)
  | .separator, .comma, .array items :: frames => some ⟨.array items :: frames, .value⟩
  | .separator, .comma, .object members key :: frames =>
    some ⟨.object members key :: frames, .key⟩
  | .separator, .closeObject, .object members _ :: frames =>
    some (deliver (.object members) frames)
  | .keyOrEnd, .closeObject, .object members _ :: frames =>
    some (deliver (.object members) frames)
  | .key, .string s, .object members _ :: frames => some ⟨.object members s :: frames, .colon⟩
  | .keyOrEnd, .string s, .object members _ :: frames =>
    some ⟨.object members s :: frames, .colon⟩
  | .colon, .colon, frames => some ⟨frames, .value⟩
  | _, _, _ => none

/-- The value that a text denotes, if it is JSON. -/
def parse? (text : String) : Option Json := do
  let cs := text.toList
  let tokens ← Token.scan? cs.length [] cs
  let p ← tokens.foldlM Progress.step? ⟨[], .value⟩
  match p.due with
  | .nothing value => return value
  | _ => failure

end TypedClient.Json
