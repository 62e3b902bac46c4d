import TypedClient.Yaml.Event
import TypedClient.Yaml.Scalar
import TypedClient.Yaml.Stream

/-!
# Reading YAML

A text holds one document, whose value is a JSON tree. Keys are taken as they are
written, and a repeated key keeps its first place and takes the last value. An alias
stands for the node with the anchor of that name. How deep values nest and how often
aliases are followed is limited.
-/

namespace TypedClient.Yaml

/-- An event of a document of which the anchors have been numbered. -/
inductive Step where
  | alias (anchor : Nat)
  | scalar (tag : Option String) (text : String) (plain : Bool)
  | sequenceStart (tag : Option String)
  | sequenceEnd
  | mappingStart (tag : Option String)
  | mappingEnd
deriving DecidableEq, Repr, Inhabited

/-- A document: its steps, and for every anchor the place of its node. -/
structure Document where
  steps : List Step
  places : List (Nat × Nat)

/-- Numbers the anchors of a document. Every anchor gets the number of names known so far, also one
whose name is known already; where numbers coincide, the later node counts. -/
def number? (names : List (String × Nat)) (place : Nat) : List Event → Option Document
  | [] => some { steps := [], places := [] }
  | event :: rest =>
    let anchored (p : Properties) (step : Step) : Option Document :=
      match p.anchor with
      | none => (number? names (place + 1) rest).map fun d => { d with steps := step :: d.steps }
      | some name =>
        (number? (Json.setMember name names.length names) (place + 1) rest).map fun d =>
          { steps := step :: d.steps, places := d.places ++ [(names.length, place)] }
    match event with
    | .alias name => do
      let anchor ← names.lookup name
      let d ← number? names (place + 1) rest
      return { d with steps := .alias anchor :: d.steps }
    | .scalar p text plain => anchored p (.scalar p.tag text plain)
    | .sequenceStart p => anchored p (.sequenceStart p.tag)
    | .mappingStart p => anchored p (.mappingStart p.tag)
    | .sequenceEnd => anchored {} .sequenceEnd
    | .mappingEnd => anchored {} .mappingEnd
    | .documentStart => none
    | .documentEnd => none

/-- The steps still to be taken, and how often aliases have been followed. -/
structure Progress where
  rest : List Step
  jumps : Nat := 0

/-- A reader of the values of a document. -/
abbrev Composer (α : Type) := StateT Progress Option α

namespace Composer

/-- Takes the next step. -/
def next : Composer Step := do
  match (← get).rest with
  | [] => failure
  | step :: rest =>
    modify fun p => { p with rest := rest }
    return step

/-- How often aliases may be followed for each step of the document. -/
def jumpsPerStep : Nat := 100

/-- Reads the node that an alias stands for. -/
def follow {α : Type} (d : Document) (anchor : Nat) (read : Composer α) : Composer α := do
  match d.places.lookup anchor with
  | none => failure
  | some place =>
    let p ← get
    if d.steps.length * jumpsPerStep < p.jumps + 1 then failure
    set { rest := d.steps.drop place, jumps := p.jumps + 1 : Progress }
    let a ← read
    modify fun q => { q with rest := p.rest }
    return a

/-- Reads as long as the next step is not the given one, which is taken. -/
def upTo {α : Type} (last : Step) (read : Composer α) : Composer (List α) := do
  let items ← Text.readMany (fun p => p.rest.length) do
    if (← get).rest.head? == some last then return none
    return some (← read)
  let _ ← next
  return items

/-- The text of a key. -/
def keyText : Step → Option String
  | .scalar _ text _ => some text
  | _ => none

/-- Reads a key. -/
def key (d : Document) : Composer String := do
  match ← next with
  | .alias anchor => follow d anchor do StateT.lift (keyText (← next))
  | step => StateT.lift (keyText step)

/-- Whether a collection may have a tag. -/
def isAllowedTag (tag : Option String) : Bool := tag.all fun t => t.toList.head? != some '!'

/-- Reads the value that starts with a step, given the reader of the values inside it; there is none
where values must not nest any deeper. -/
def valueFrom (d : Document) (inside? : Option (Composer Json)) (step : Step) : Composer Json := do
  match step with
  | .scalar (some tag) text _ => StateT.lift (taggedValue? tag text)
  | .scalar none text plain => if plain then StateT.lift (plainValue? text) else return .string text
  | .sequenceStart tag =>
    match inside? with
    | none => failure
    | some inside =>
      if !isAllowedTag tag then failure
      return .array (← upTo .sequenceEnd inside)
  | .mappingStart tag =>
    match inside? with
    | none => failure
    | some inside =>
      if !isAllowedTag tag then failure
      let pairs ← upTo .mappingEnd do return (← key d, ← inside)
      return .object (pairs.foldl (fun ms (k, v) => Json.setMember k v ms) [])
  | _ => failure

/-- Reads a value. -/
def valueAround (d : Document) (inside? : Option (Composer Json)) : Composer Json := do
  match ← next with
  | .alias anchor => follow d anchor do valueFrom d inside? (← next)
  | step => valueFrom d inside? step

/-- Reads a value that nests at most so deep. -/
def value (d : Document) : Nat → Composer Json
  | 0 => valueAround d none
  | depth + 1 => valueAround d (some (value d depth))

end Composer

/-- How deep values nest at most. -/
def maxDepth : Nat := 128

/-- The value of a document. -/
def Document.value? (d : Document) : Option Json :=
  ((Composer.value d maxDepth).run { rest := d.steps }).map (·.1)

/-- The value of a text, if it is YAML and holds at most one document. A text without a document has
the value `null`. -/
def parse? (text : String) : Option Json := do
  let events ← Event.ofTokens? (← Token.ofText? text.toList)
  match events with
  | [] => return .null
  | _ :: events =>
    let (body, behind) := events.span (· != .documentEnd)
    if behind.length ≠ 1 then failure
    (← number? [] 0 body).value?

end TypedClient.Yaml
