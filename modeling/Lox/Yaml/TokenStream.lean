/-
  Lox.Yaml.TokenStream — the tokens of a text, one after the other. What is a key shows
  only at the colon behind it, so tokens wait in a queue, and the token that says that a
  key starts is put in where the key was. At least three tokens are read ahead, and a fault
  among them shows before the first of them is given out.
-/

import Lox.Yaml.Scalar.Block
import Lox.Yaml.Scalar.Plain
import Lox.Yaml.Scalar.Quoted
import Lox.Yaml.Token

namespace Lox.Yaml

structure KeyPlace where
  possible : Bool := false
  /-- Can there be nothing but a key in this place? -/
  required : Bool := false
  /-- How many tokens come before it. -/
  number : Nat := 0
  mark : Mark := {}

structure TokenStream where
  cursor : Cursor
  queue : List Token := []
  /-- How many tokens were given out. -/
  taken : Nat := 0
  started : Bool := false
  indent : Int := -1
  /-- The indentation of the blocks around, from the inside. -/
  outerIndents : List Int := []
  keyAllowed : Bool := true
  keyPlace : KeyPlace := {}
  /-- The places of the flow collections around, from the inside; none in a block. -/
  outerKeyPlaces : List KeyPlace := []

abbrev Tokenizing := StateT TokenStream (Except Malformed)

namespace TokenStream

def ofBytes (bytes : Bytes) : TokenStream := { cursor := .ofSource (.ofBytes bytes) }

def inFlow (s : TokenStream) : Bool := !s.outerKeyPlaces.isEmpty

def nextNumber (s : TokenStream) : Nat := s.taken + s.queue.length

def add (s : TokenStream) (token : Token) : TokenStream := { s with queue := s.queue ++ [token] }

def insert (s : TokenStream) (number : Nat) (token : Token) : TokenStream :=
  let k := number - s.taken
  { s with queue := s.queue.take k ++ token :: s.queue.drop k }

def depthLimit : Nat := 10000

def keyLimit : Nat := 1024

def lookahead : Nat := 3

end TokenStream

namespace Tokenizing

open TokenStream

def read {α : Type} (reading : Reading α) : Tokenizing α := do
  let s ← get
  let (a, cursor) ← liftM (reading.run s.cursor)
  set { s with cursor }
  return a

def mark : Tokenizing Mark := return (← get).cursor.mark

def fail {α : Type} (start : Mark) (fault : Fault) : Tokenizing α := do
  throw (.inToken start (← mark) fault)

def allowKey (allowed : Bool) : Tokenizing Unit := modify fun s => { s with keyAllowed := allowed }

/-! ## Keys -/

/-- Can the place still turn out to be a key? It must be in this line and not too far back. -/
def isLive (place : KeyPlace) : Tokenizing Bool := do
  if !place.possible then return false
  let here ← mark
  if place.mark.line < here.line || place.mark.index + keyLimit < here.index then
    if place.required then fail place.mark .keyWithoutColon
    return false
  return true

def dropKey : Tokenizing Unit := do
  let place := (← get).keyPlace
  if place.possible && place.required then fail place.mark .keyWithoutColon
  modify fun s => { s with keyPlace := { place with possible := false } }

def noteKey : Tokenizing Unit := do
  let s ← get
  if s.keyAllowed then
    dropKey
    let place := {
      possible := true
      required := !s.inFlow && s.indent == s.cursor.mark.column
      number := s.nextNumber
      mark := s.cursor.mark }
    modify fun s => { s with keyPlace := place }

/-! ## Indentation -/

/-- Starts a block in a column, unless one with this indentation is open. Its token goes in
front of the one with the number, or to the end. -/
def openBlock (column : Nat) (number : Option Nat) (kind : TokenKind) (place : Mark) : Tokenizing Unit := do
  let s ← get
  if !s.inFlow && s.indent < column then
    if depthLimit < s.outerIndents.length + 1 then fail s.keyPlace.mark .tooDeep
    let token : Token := ⟨kind, place, place⟩
    let s := { s with outerIndents := s.indent :: s.outerIndents, indent := column }
    set (match number with
      | some k => s.insert k token
      | none => s.add token)

def closeBlocksFrom (column : Int) (place : Mark) : List Int → TokenStream → TokenStream
  | [], s => s
  | outer :: rest, s =>
    if column < s.indent then
      closeBlocksFrom column place rest
        { s.add ⟨.blockEnd, place, place⟩ with indent := outer, outerIndents := rest }
    else s

def closeBlocks (column : Int) (place : Mark) : Tokenizing Unit :=
  modify fun s => if s.inFlow then s else closeBlocksFrom column place s.outerIndents s

/-! ## Tokens -/

def addRead (reading : Reading TokenKind) : Tokenizing Unit := do
  let start ← mark
  let kind ← read reading
  let stop ← mark
  modify (·.add ⟨kind, start, stop⟩)

def addMarked (width : Nat) (kind : TokenKind) : Tokenizing Unit :=
  addRead do
    modify (·.skipMany width)
    return kind

/-- The end of a text is in a line of its own. -/
def addStreamEnd : Tokenizing Unit := do
  let s ← get
  let here := s.cursor.mark
  let here := if here.column = 0 then here else { here with line := here.line + 1, column := 0 }
  set { s with cursor := { s.cursor with mark := here } }
  closeBlocks (-1) here
  dropKey
  allowKey false
  addMarked 0 .streamEnd

def leaveDocument : Tokenizing Unit := do
  closeBlocks (-1) (← mark)
  dropKey
  allowKey false

def addFlowStart (kind : TokenKind) : Tokenizing Unit := do
  noteKey
  let s ← get
  let place : KeyPlace := { number := s.nextNumber, mark := s.cursor.mark }
  set { s with keyPlace := place, outerKeyPlaces := s.keyPlace :: s.outerKeyPlaces }
  if depthLimit < s.outerKeyPlaces.length + 1 then fail place.mark .tooDeep
  allowKey true
  addMarked 1 kind

def addFlowEnd (kind : TokenKind) : Tokenizing Unit := do
  dropKey
  modify fun s =>
    match s.outerKeyPlaces with
    | [] => s
    | place :: rest => { s with keyPlace := place, outerKeyPlaces := rest }
  allowKey false
  addMarked 1 kind

def addFlowEntry : Tokenizing Unit := do
  dropKey
  allowKey true
  addMarked 1 .flowEntry

def addBlockEntry : Tokenizing Unit := do
  let s ← get
  let here := s.cursor.mark
  if !s.inFlow then
    if !s.keyAllowed then fail here .entryNotAllowed
    openBlock here.column none .blockSequenceStart here
  dropKey
  allowKey true
  addMarked 1 .blockEntry

def addKey : Tokenizing Unit := do
  let s ← get
  let here := s.cursor.mark
  if !s.inFlow then
    if !s.keyAllowed then fail here .keyNotAllowed
    openBlock here.column none .blockMappingStart here
  dropKey
  allowKey (!s.inFlow)
  addMarked 1 .key

/-- A colon: what stood in the place of the key is one. -/
def addValue : Tokenizing Unit := do
  let s ← get
  let here := s.cursor.mark
  let place := s.keyPlace
  if ← isLive place then
    modify (·.insert place.number ⟨.key, place.mark, place.mark⟩)
    openBlock place.mark.column (some place.number) .blockMappingStart place.mark
    modify fun s => { s with keyPlace := { place with possible := false } }
    allowKey false
  else
    modify fun s => { s with keyPlace := { place with possible := false } }
    if !s.inFlow then
      if !s.keyAllowed then fail here .valueNotAllowed
      openBlock here.column none .blockMappingStart here
    allowKey (!s.inFlow)
  addMarked 1 .value

/-- Adds a token that can start a key, and behind which no key can start. -/
def addKeyPart (reading : Reading TokenKind) : Tokenizing Unit := do
  noteKey
  allowKey false
  addRead reading

def addBlockScalar (literal : Bool) : Tokenizing Unit := do
  dropKey
  allowKey true
  let indent := (← get).indent
  addRead (return .scalar false (← BlockScalar.take literal indent))

def addPlain : Tokenizing Unit := do
  noteKey
  allowKey false
  let s ← get
  let start ← mark
  let (text, broken) ← read (Plain.take s.inFlow s.indent)
  let stop ← mark
  modify (·.add ⟨.scalar true text, start, stop⟩)
  if broken then allowKey true

def addContent (c next : Char) : Tokenizing Unit := do
  let flow := (← get).inFlow
  if c = '[' then addFlowStart .flowSequenceStart
  else if c = openBrace then addFlowStart .flowMappingStart
  else if c = ']' then addFlowEnd .flowSequenceEnd
  else if c = closeBrace then addFlowEnd .flowMappingEnd
  else if c = ',' then addFlowEntry
  else if c = '-' && isGap next then addBlockEntry
  else if c = '?' && (flow || isGap next) then addKey
  else if c = ':' && (flow || isGap next) then addValue
  else if c = '*' then addKeyPart (return .reference (← takeName))
  else if c = '&' then addKeyPart (return .anchor (← takeName))
  else if c = '!' then addKeyPart (return .tag (← takeTag))
  else if c = '|' && !flow then addBlockScalar true
  else if c = '>' && !flow then addBlockScalar false
  else if c = apostrophe || c = quotation then addKeyPart (return .scalar false (← Quoted.take c))
  else if Plain.canStart flow c next then addPlain
  else fail (← mark) .noToken

/-- Reads on: adds the next token, and those that indentation makes before it. -/
def fetch : Tokenizing Unit := do
  read (Reading.need 1)
  let s ← get
  if !s.started then
    set { s.add ⟨.streamStart, s.cursor.mark, s.cursor.mark⟩ with started := true }
    return ()
  let allowed ← read (Reading.skipToToken s.inFlow (s.cursor.size + 1) s.keyAllowed)
  allowKey allowed
  closeBlocks (← mark).column s.cursor.mark
  read (Reading.need 4)
  let c := (← get).cursor
  if isEnd (c.look 0) then addStreamEnd
  else if c.mark.column = 0 && c.look 0 = '%' then
    leaveDocument
    addRead (return .directive (← takeDirective))
  else if c.atDocumentMark '-' then
    leaveDocument
    addMarked 3 .documentStart
  else if c.atDocumentMark '.' then
    leaveDocument
    addMarked 3 .documentEnd
  else
    addContent (c.look 0) (c.look 1)
    if (← get).queue.getLast?.map (·.kind) ≠ some .blockEntry then read Reading.skipLineComment

/-- Reads on until the first token of the queue is settled. -/
def settle : Nat → Tokenizing Unit
  | 0 => return ()
  | n + 1 => do
    let s ← get
    let waits ← if s.queue.length < lookahead then pure true
      else match (s.keyPlace :: s.outerKeyPlaces).find? fun k => k.possible && k.number == s.taken with
        | some place => isLive place
        | none => pure false
    if waits then
      fetch
      settle n

def peek : Tokenizing Token := do
  settle ((← get).cursor.size + lookahead + 1)
  let s ← get
  return s.queue.head?.getD ⟨.streamEnd, s.cursor.mark, s.cursor.mark⟩

def advance : Tokenizing Unit :=
  modify fun s => { s with queue := s.queue.tail, taken := s.taken + 1 }

end Tokenizing

end Lox.Yaml
