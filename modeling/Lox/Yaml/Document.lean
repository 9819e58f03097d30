/-
  Lox.Yaml.Document — the first document of a text, from its tokens. Collections are read
  entry by entry; where a key, a value or an entry is left out, there is an empty scalar.
-/

import Lox.Yaml.Node
import Lox.Yaml.TokenStream

namespace Lox.Yaml

structure Progress where
  tokens : TokenStream
  /-- What tag handles stand for. -/
  handles : List (Bytes × Bytes) := []
  /-- Names and the numbers of their nodes, the latest first. -/
  names : List (Bytes × Nat) := []
  named : List (Nat × Node) := []
  /-- The next number for a named node or an alias. -/
  next : Nat := 0

abbrev Assembling := StateT Progress (Except Malformed)

namespace Assembling

def tokens {α : Type} (reading : Tokenizing α) : Assembling α := do
  let p ← get
  let (a, tokens) ← liftM (reading.run p.tokens)
  set { p with tokens }
  return a

def peek : Assembling Token := tokens Tokenizing.peek

def advance : Assembling Unit := tokens Tokenizing.advance

def advanceTo : Assembling Token := do
  advance
  peek

def fail {α : Type} (start place : Mark) (fault : Fault) : Assembling α := throw (.inDocument start place fault)

def freshNumber : Assembling Nat :=
  modifyGet fun p => (p.next, { p with next := p.next + 1 })

/-! ## Nodes -/

structure Properties where
  start : Mark
  anchor : Option Bytes := none
  tag : Option (TagText × Mark) := none

/-- Takes a name and a tag, in either order, and looks at what follows. -/
def takeProperties : Assembling (Properties × Token) := do
  let first ← peek
  let found : Properties := { start := first.start }
  match first.kind with
  | .anchor name =>
    let found := { found with anchor := some name }
    let second ← advanceTo
    match second.kind with
    | .tag tag => return ({ found with tag := some (tag, second.start) }, ← advanceTo)
    | _ => return (found, second)
  | .tag tag =>
    let found := { found with tag := some (tag, first.start) }
    let second ← advanceTo
    match second.kind with
    | .anchor name => return ({ found with anchor := some name }, ← advanceTo)
    | _ => return (found, second)
  | _ => return (found, first)

def fullTag (properties : Properties) : Assembling Bytes := do
  match properties.tag with
  | none => return []
  | some (tag, place) =>
    if tag.handle.isEmpty then return tag.suffix
    match (← get).handles.lookup tag.handle with
    | some expansion => return expansion ++ tag.suffix
    | none => fail properties.start place .undefinedHandle

def tagOr (tag otherwise : Bytes) : Bytes :=
  if tag.isEmpty || tag = utf8 "!" then otherwise else Tag.short tag

def giveName (anchor : Option Bytes) : Assembling (Option Nat) := do
  match anchor with
  | none => return none
  | some name =>
    let number ← freshNumber
    modify fun p => { p with names := (name, number) :: p.names }
    return some number

def keep (number : Option Nat) (node : Node) : Assembling Node := do
  match number with
  | none => return node
  | some k =>
    modify fun p => { p with named := (k, node) :: p.named }
    return node

def scalar (properties : Properties) (tag : Bytes) (plain : Bool) (value : Bytes) : Assembling Node := do
  let natural := if !plain then Tag.str else if value = utf8 "<<" then Tag.merge else plainTag value
  let number ← giveName properties.anchor
  keep number (.scalar (properties.start.line + 1) (tagOr tag natural) value)

/-- What stands for a node left out. -/
def empty (place : Mark) : Node := .scalar (place.line + 1) Tag.null []

def reference (place : Mark) (name : Bytes) : Assembling Node := do
  match (← get).names.lookup name with
  | none => throw (.unplaced (.unknownAnchor name))
  | some target =>
    advance
    return .reference (place.line + 1) name (← freshNumber) target

mutual

/-- Takes a node. Block collections can stand in blocks only, and a sequence that is no
further indented than its key can stand behind a key only. The first number bounds the
steps. -/
def node : Nat → Bool → Bool → Assembling Node
  | 0, _, _ => throw (.unplaced .tooDeep)
  | n + 1, inBlock, unindented => do
    let first ← peek
    if let .reference name := first.kind then return ← reference first.start name
    let (properties, token) ← takeProperties
    let tag ← fullTag properties
    let line := properties.start.line + 1
    let asSequence := fun (items : Assembling (List Node)) => do
      let number ← giveName properties.anchor
      keep number (.sequence line (tagOr tag Tag.seq) (← items))
    let asMapping := fun (entries : Assembling (List (Node × Node))) => do
      let number ← giveName properties.anchor
      keep number (.mapping line (tagOr tag Tag.map) (← entries))
    match token.kind, inBlock, unindented with
    | .blockEntry, _, true => asSequence (unindentedEntries n)
    | .scalar plain value, _, _ =>
      advance
      scalar properties tag plain value
    | .flowSequenceStart, _, _ =>
      asSequence do
        advance
        flowItems n token.start true
    | .flowMappingStart, _, _ =>
      asMapping do
        advance
        flowPairs n token.start true
    | .blockSequenceStart, true, _ =>
      asSequence do
        advance
        blockItems n token.start
    | .blockMappingStart, true, _ =>
      asMapping do
        advance
        blockPairs n token.start
    | _, _, _ =>
      if properties.anchor.isSome || !tag.isEmpty then scalar properties tag true []
      else fail properties.start token.start .expectedContent

def blockItems : Nat → Mark → Assembling (List Node)
  | 0, _ => throw (.unplaced .tooDeep)
  | n + 1, start => do
    let token ← peek
    match token.kind with
    | .blockEntry =>
      let next ← advanceTo
      let item ← match next.kind with
        | .blockEntry | .blockEnd => pure (empty token.stop)
        | _ => node n true false
      return item :: (← blockItems n start)
    | .blockEnd =>
      advance
      return []
    | _ => fail start token.start .expectedEntry

/-- Takes the entries of a sequence that is not indented. -/
def unindentedEntries : Nat → Assembling (List Node)
  | 0 => throw (.unplaced .tooDeep)
  | n + 1 => do
    let token ← peek
    match token.kind with
    | .blockEntry =>
      let next ← advanceTo
      let item ← match next.kind with
        | .blockEntry | .key | .value | .blockEnd => pure (empty token.stop)
        | _ => node n true false
      return item :: (← unindentedEntries n)
    | _ => return []

def blockPart : Nat → Token → Assembling Node
  | 0, _ => throw (.unplaced .tooDeep)
  | n + 1, token => do
    let next ← advanceTo
    match next.kind with
    | .key | .value | .blockEnd => return empty token.stop
    | _ => node n true true

def blockPairs : Nat → Mark → Assembling (List (Node × Node))
  | 0, _ => throw (.unplaced .tooDeep)
  | n + 1, start => do
    let token ← peek
    match token.kind with
    | .key =>
      let key ← blockPart n token
      let next ← peek
      let value ← if next.kind = .value then blockPart n next else pure (empty next.start)
      return (key, value) :: (← blockPairs n start)
    | .blockEnd =>
      advance
      return []
    | _ => fail start token.start .expectedKey

def flowValue : Nat → TokenKind → Assembling Node
  | 0, _ => throw (.unplaced .tooDeep)
  | n + 1, closing => do
    let token ← peek
    if token.kind ≠ .value then return empty token.start
    let next ← advanceTo
    if next.kind = .flowEntry || next.kind = closing then return empty next.start
    node n false false

/-- Takes the items of a flow sequence. A key makes an item a mapping with one entry. -/
def flowItems : Nat → Mark → Bool → Assembling (List Node)
  | 0, _, _ => throw (.unplaced .tooDeep)
  | n + 1, start, first => do
    let token ← peek
    let token ← if token.kind = .flowSequenceEnd || first then pure token
      else if token.kind = .flowEntry then advanceTo
      else fail start token.start .expectedSequenceEnd
    match token.kind with
    | .flowSequenceEnd =>
      advance
      return []
    | .key =>
      let next ← advanceTo
      let key ← match next.kind with
        | .value | .flowEntry | .flowSequenceEnd =>
          advance
          pure (empty next.stop)
        | _ => node n false false
      let value ← flowValue n .flowSequenceEnd
      let item := Node.mapping (token.start.line + 1) Tag.map [(key, value)]
      return item :: (← flowItems n start false)
    | _ =>
      let item ← node n false false
      return item :: (← flowItems n start false)

def flowPairs : Nat → Mark → Bool → Assembling (List (Node × Node))
  | 0, _, _ => throw (.unplaced .tooDeep)
  | n + 1, start, first => do
    let token ← peek
    let token ← if token.kind = .flowMappingEnd || first then pure token
      else if token.kind = .flowEntry then advanceTo
      else fail start token.start .expectedMappingEnd
    match token.kind with
    | .flowMappingEnd =>
      advance
      return []
    | .key =>
      let next ← advanceTo
      let key ← match next.kind with
        | .value | .flowEntry | .flowMappingEnd => pure (empty next.start)
        | _ => node n false false
      let value ← flowValue n .flowMappingEnd
      return (key, value) :: (← flowPairs n start false)
    | _ =>
      let key ← node n false false
      let value := empty (← peek).start
      return (key, value) :: (← flowPairs n start false)

end

/-! ## Documents -/

def standardHandles : List (Bytes × Bytes) := [(utf8 "!", utf8 "!"), (utf8 "!!", Tag.standard)]

/-- Takes directives. The flag tells whether the version was given. -/
def directives : Nat → Bool → Assembling Unit
  | 0, _ => return ()
  | n + 1, versioned => do
    let token ← peek
    match token.kind with
    | .directive (.version major minor) =>
      if versioned then fail {} token.start .repeatedVersion
      if major ≠ 1 || minor ≠ 1 then fail {} token.start .incompatibleVersion
      advance
      directives n true
    | .directive (.handle handle expansion) =>
      if ((← get).handles.lookup handle).isSome then fail {} token.start .repeatedHandle
      modify fun p => { p with handles := p.handles ++ [(handle, expansion)] }
      advance
      directives n versioned
    | _ => return ()

def content (steps : Nat) : Assembling Node := do
  let token ← peek
  match token.kind with
  | .directive _ | .documentStart | .documentEnd | .streamEnd => return empty token.start
  | _ => node steps true false

/-- Takes the first document, if there is one, and looks at what follows it. -/
def document (steps : Nat) : Assembling (Option Node) := do
  let _ ← peek
  let first ← advanceTo
  let useStandard := modify fun p => { p with handles := p.handles ++ standardHandles }
  let root ← match first.kind with
    | .streamEnd => return none
    | .directive _ | .documentStart => do
      directives steps false
      useStandard
      let token ← peek
      if token.kind ≠ .documentStart then fail {} token.start .expectedDocumentStart
      advance
      content steps
    | _ => do
      useStandard
      node steps true false
  let _ ← peek
  return some root

end Assembling

/-- Reads the first document of a text; none if there is nothing in it. -/
def parse (bytes : Bytes) : Except Malformed (Option Document) := do
  let (root, progress) ← (Assembling.document (8 * bytes.length + 64)).run { tokens := .ofBytes bytes }
  return root.map fun root => { root, named := progress.named }

end Lox.Yaml
