import TypedClient.Yaml.Token

/-!
# Events of YAML

The nodes of the documents in a stream of tokens, in the order in which they start
and end. Nodes that are left out, such as a key without a value, appear as empty
scalars. The grammar is taken by an automaton whose stack holds what is still open.
-/

namespace TypedClient.Yaml

/-- What a node carries besides its contents: a name to refer to it by, and a tag. -/
structure Properties where
  anchor : Option String := none
  tag : Option String := none
deriving DecidableEq, Repr, Inhabited

/-- The start or the end of a node or document. -/
inductive Event where
  | documentStart
  | documentEnd
  | alias (name : String)
  | scalar (properties : Properties) (text : String) (plain : Bool)
  | sequenceStart (properties : Properties)
  | sequenceEnd
  | mappingStart (properties : Properties)
  | mappingEnd
deriving DecidableEq, Repr, Inhabited

namespace Event

/-- What the automaton expects next. -/
inductive Phase where
  /-- A document; it may start without a mark. -/
  | firstDocument
  /-- A document behind another one. -/
  | nextDocument
  /-- The contents of a document behind its mark. -/
  | contents
  | documentEnd
  /-- A node. In a block, blocks may follow; as a value, also items at the column of its key. -/
  | node (inBlock asValue : Bool)
  | blockItem
  /-- An item of a sequence at the column of its key. -/
  | levelItem
  | blockKey
  | blockValue
  | flowItem (isFirst : Bool)
  /-- The key of a mapping that has one pair and no brackets. -/
  | pairKey
  | pairValue
  | pairEnd
  | flowKey (isFirst : Bool)
  | flowValue
  /-- The value of a key without a colon. -/
  | noValue
deriving DecidableEq, Repr

/-- The automaton between two steps. -/
structure Grammar where
  stack : List Phase
  tokens : List Token
  /-- What the handles of tags stand for. -/
  handles : List (String × String) := []

/-- An empty scalar. -/
def empty : Event := .scalar {} "" true

/-- The handles that every document knows. -/
def commonHandles : List (String × String) := [("!", "!"), ("!!", "tag:yaml.org,2002:")]

/-- The handles that directives explain, and the tokens behind the directives. Of versions only
1.1 and 1.2 are known, and nothing may be said twice. -/
def directives? (versioned : Bool) (handles : List (String × String)) :
    List Token → Option (List (String × String) × List Token)
  | .version major minor :: rest =>
    if versioned || major ≠ 1 || (minor ≠ 1 && minor ≠ 2) then none
    else directives? true handles rest
  | .shorthand handle expansion :: rest =>
    if (handles.lookup handle).isSome then none
    else directives? versioned (handles ++ [(handle, expansion)]) rest
  | tokens => some (handles, tokens)

/-- The tag that a handle and a suffix make up. -/
def expand? (handles : List (String × String)) (handle suffix : String) : Option String :=
  if handle.isEmpty then some suffix
  else ((handles ++ commonHandles).lookup handle).map (· ++ suffix)

/-- The properties in front of a node, in either order. -/
def properties? (handles : List (String × String)) :
    List Token → Option (Properties × List Token)
  | .anchor name :: .tag handle suffix :: rest =>
    (expand? handles handle suffix).map fun tag => (⟨some name, some tag⟩, rest)
  | .anchor name :: rest => some (⟨some name, none⟩, rest)
  | .tag handle suffix :: .anchor name :: rest =>
    (expand? handles handle suffix).map fun tag => (⟨some name, some tag⟩, rest)
  | .tag handle suffix :: rest =>
    (expand? handles handle suffix).map fun tag => (⟨none, some tag⟩, rest)
  | tokens => some ({}, tokens)

/-- The properties of a scalar. The tag that only says that there is no other one is dropped. -/
def ofScalar (p : Properties) : Properties :=
  if p.tag = some "!" then { p with tag := none } else p

/-- What a step of the automaton gives: the events, and how it goes on. -/
abbrev Outcome := Option (List Event × Grammar)

namespace Grammar

/-- Goes on with the given phases on top of the stack and the given tokens. -/
def proceed (g : Grammar) (events : List Event) (phases : List Phase) (tokens : List Token) :
    Outcome :=
  some (events, { g with stack := phases ++ g.stack, tokens := tokens })

/-- Goes on with a node, or with an empty scalar where one of the given tokens comes next. -/
def nodeUnless (g : Grammar) (ends : List Token) (inBlock asValue : Bool) (phase : Phase)
    (tokens : List Token) : Outcome :=
  if tokens.head?.any ends.contains then g.proceed [empty] [phase] tokens
  else g.proceed [] [.node inBlock asValue, phase] tokens

/-- A node. -/
def node? (g : Grammar) (inBlock asValue : Bool) : Outcome :=
  match g.tokens with
  | .alias name :: rest => g.proceed [.alias name] [] rest
  | tokens => do
    let (p, tokens) ← properties? g.handles tokens
    match tokens, inBlock, asValue with
    | .blockEntry :: _, _, true => g.proceed [.sequenceStart p] [.levelItem] tokens
    | .scalar text plain :: rest, _, _ => g.proceed [.scalar (ofScalar p) text plain] [] rest
    | .flowSequenceStart :: rest, _, _ => g.proceed [.sequenceStart p] [.flowItem true] rest
    | .flowMappingStart :: rest, _, _ => g.proceed [.mappingStart p] [.flowKey true] rest
    | .blockSequenceStart :: rest, true, _ => g.proceed [.sequenceStart p] [.blockItem] rest
    | .blockMappingStart :: rest, true, _ => g.proceed [.mappingStart p] [.blockKey] rest
    | _, _, _ => if p = {} then failure else g.proceed [.scalar p "" true] [] tokens

/-- A document behind its directives and its mark. -/
def markedDocument? (g : Grammar) : Outcome := do
  match ← directives? false [] g.tokens with
  | (handles, .documentStart :: rest) =>
    Grammar.proceed { g with handles := handles } [.documentStart] [.contents, .documentEnd] rest
  | _ => failure

/-- The first document. -/
def firstDocument? (g : Grammar) : Outcome :=
  match g.tokens with
  | [] => g.proceed [] [] []
  | .version _ _ :: _ => g.markedDocument?
  | .shorthand _ _ :: _ => g.markedDocument?
  | .documentStart :: _ => g.markedDocument?
  | tokens => g.proceed [.documentStart] [.node true false, .documentEnd] tokens

/-- Another document. -/
def nextDocument? (g : Grammar) : Outcome :=
  match g.tokens.dropWhile (· == .documentEnd) with
  | [] => g.proceed [] [] []
  | tokens => markedDocument? { g with tokens := tokens }

/-- The contents of a document behind its mark. -/
def contents? (g : Grammar) : Outcome :=
  match g.tokens with
  | [] => g.proceed [empty] [] []
  | .version _ _ :: _ => g.proceed [empty] [] g.tokens
  | .shorthand _ _ :: _ => g.proceed [empty] [] g.tokens
  | .documentStart :: _ => g.proceed [empty] [] g.tokens
  | .documentEnd :: _ => g.proceed [empty] [] g.tokens
  | tokens => g.proceed [] [.node true false] tokens

/-- The tokens behind the comma that separates items; the first item needs none. -/
def behindComma? (isFirst : Bool) (tokens : List Token) : Option (List Token) :=
  if isFirst then some tokens
  else match tokens with
    | .flowEntry :: rest => some rest
    | _ => none

/-- An item of a sequence in brackets, or its end. -/
def flowItem? (g : Grammar) (isFirst : Bool) : Outcome :=
  match g.tokens with
  | .flowSequenceEnd :: rest => g.proceed [.sequenceEnd] [] rest
  | tokens => do
    match ← behindComma? isFirst tokens with
    | .flowSequenceEnd :: rest => g.proceed [.sequenceEnd] [] rest
    | .key :: rest => g.proceed [.mappingStart {}] [.pairKey] rest
    | tokens => g.proceed [] [.node false false, .flowItem false] tokens

/-- A key of a mapping in brackets, or its end. -/
def flowKey? (g : Grammar) (isFirst : Bool) : Outcome :=
  match g.tokens with
  | .flowMappingEnd :: rest => g.proceed [.mappingEnd] [] rest
  | tokens => do
    match ← behindComma? isFirst tokens with
    | .flowMappingEnd :: rest => g.proceed [.mappingEnd] [] rest
    | .key :: rest =>
      g.nodeUnless [.value, .flowEntry, .flowMappingEnd] false false .flowValue rest
    | tokens => g.proceed [] [.node false false, .noValue] tokens

/-- The key of a pair without brackets. In the place of a missing key one token is dropped. -/
def pairKey? (g : Grammar) : Outcome :=
  if g.tokens.head?.any [Token.value, .flowEntry, .flowSequenceEnd].contains then
    g.proceed [empty] [.pairValue] (g.tokens.drop 1)
  else g.proceed [] [.node false false, .pairValue] g.tokens

/-- What is done in a phase, which has been taken off the stack. -/
def inPhase? (g : Grammar) : Phase → Outcome
  | .firstDocument => g.firstDocument?
  | .nextDocument => g.nextDocument?
  | .contents => g.contents?
  | .documentEnd =>
    Grammar.proceed { g with handles := [] } [.documentEnd] [.nextDocument]
      (if g.tokens.head? == some .documentEnd then g.tokens.drop 1 else g.tokens)
  | .node inBlock asValue => g.node? inBlock asValue
  | .blockItem =>
    match g.tokens with
    | .blockEntry :: rest => g.nodeUnless [.blockEntry, .blockEnd] true false .blockItem rest
    | .blockEnd :: rest => g.proceed [.sequenceEnd] [] rest
    | _ => none
  | .levelItem =>
    match g.tokens with
    | .blockEntry :: rest =>
      g.nodeUnless [.blockEntry, .key, .value, .blockEnd] true false .levelItem rest
    | tokens => g.proceed [.sequenceEnd] [] tokens
  | .blockKey =>
    match g.tokens with
    | .key :: rest => g.nodeUnless [.key, .value, .blockEnd] true true .blockValue rest
    | .blockEnd :: rest => g.proceed [.mappingEnd] [] rest
    | _ => none
  | .blockValue =>
    match g.tokens with
    | .value :: rest => g.nodeUnless [.key, .value, .blockEnd] true true .blockKey rest
    | tokens => g.proceed [empty] [.blockKey] tokens
  | .flowItem isFirst => g.flowItem? isFirst
  | .pairKey => g.pairKey?
  | .pairValue =>
    match g.tokens with
    | .value :: rest => g.nodeUnless [.flowEntry, .flowSequenceEnd] false false .pairEnd rest
    | tokens => g.proceed [empty] [.pairEnd] tokens
  | .pairEnd => g.proceed [.mappingEnd] [.flowItem false] g.tokens
  | .flowKey isFirst => g.flowKey? isFirst
  | .flowValue =>
    match g.tokens with
    | .value :: rest => g.nodeUnless [.flowEntry, .flowMappingEnd] false false (.flowKey false) rest
    | tokens => g.proceed [empty] [.flowKey false] tokens
  | .noValue => g.proceed [empty] [.flowKey false] g.tokens

/-- Takes up to the given number of steps, until nothing is open any more. -/
def run? : Nat → Grammar → Option (List Event)
  | 0, _ => none
  | steps + 1, g =>
    match g.stack with
    | [] => if g.tokens.isEmpty then some [] else none
    | phase :: stack => do
      let (events, next) ← inPhase? { g with stack := stack } phase
      return events ++ (← run? steps next)

end Grammar

/-- How many steps are taken for a token at most: no token opens more than three phases, each of
which is closed once. -/
def stepsPerToken : Nat := 8

/-- The events of a stream of tokens. -/
def ofTokens? (tokens : List Token) : Option (List Event) :=
  Grammar.run? (stepsPerToken * (tokens.length + 2)) { stack := [.firstDocument], tokens := tokens }

end Event

end TypedClient.Yaml
