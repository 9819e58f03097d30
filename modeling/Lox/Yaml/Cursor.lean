/-
  Lox.Yaml.Cursor — reading the characters of a YAML text one after the other. A reading
  says how far ahead it looks (`need`), for that is when a fault of the source shows. The
  text is seen through a window: when it holds too little, what was read is taken out at the
  front and blocks of the source come in at the back. A byte order mark counts as one only
  at the front of the window.
-/

import Lox.Text.Utf8
import Lox.Yaml.Source

namespace Lox.Yaml

/-! ## Characters -/

def endOfText : Char := Char.ofNat 0

def apostrophe : Char := Char.ofNat 0x27

def quotation : Char := Char.ofNat 0x22

def backslash : Char := Char.ofNat 0x5C

def openBrace : Char := Char.ofNat 0x7B

def closeBrace : Char := Char.ofNat 0x7D

def byteOrderMark : Char := Char.ofNat 0xFEFF

def isEnd (c : Char) : Bool := c == endOfText

def isBlank (c : Char) : Bool := c == ' ' || c == '\t'

/-- Line feed, carriage return, next line, line separator, paragraph separator. -/
def isBreak (c : Char) : Bool :=
  c == '\n' || c == '\r' || c.toNat == 0x85 || c.toNat == 0x2028 || c.toNat == 0x2029

def isBreakOrEnd (c : Char) : Bool := isBreak c || isEnd c

def isGap (c : Char) : Bool := isBlank c || isBreakOrEnd c

def isNameChar (c : Char) : Bool := c.isAlphanum || c == '_' || c == '-'

def hexValue? (c : Char) : Option Nat :=
  if c.isDigit then some (c.toNat - 48)
  else if 'a' ≤ c && c ≤ 'f' then some (c.toNat - 87)
  else if 'A' ≤ c && c ≤ 'F' then some (c.toNat - 55)
  else none

def bytesOf (chars : List Char) : Bytes := chars.flatMap fun c => Utf8.encode c.toNat

/-! ## The cursor -/

structure Cursor where
  rest : List Char
  /-- How many characters the whole text has, which bounds every walk through it. -/
  size : Nat
  /-- The fault behind the rest, if the text does not end there. -/
  fault : Option Fault
  /-- How many characters of the rest are in the window; the end counts as one, when met. -/
  loaded : Nat := 0
  /-- How many characters each block has that is not in the window. -/
  blocks : List Nat := []
  /-- The character at the front of the window, which may have been read. -/
  front : Char := endOfText
  mark : Mark := {}
  /-- Has a line ended, with no more than blanks since? -/
  lineEnded : Bool := false

namespace Cursor

def ofSource (source : Source) : Cursor :=
  { rest := source.chars, size := source.chars.length, fault := source.fault, blocks := source.blocks }

def look (c : Cursor) (ahead : Nat) : Char := (c.rest[ahead]?).getD endOfText

def loadBlocks (count : Nat) : Nat → List Nat → Nat × List Nat
  | loaded, [] => (loaded, [])
  | loaded, size :: blocks => if count ≤ loaded then (loaded, size :: blocks) else loadBlocks count (loaded + size) blocks

/-- Moves the window if it has fewer than so many characters to read. Then it starts here. -/
def load (c : Cursor) (count : Nat) : Cursor :=
  if count ≤ c.loaded then c
  else
    let (loaded, blocks) := loadBlocks count c.loaded c.blocks
    let atEnd := loaded < count && c.fault.isNone
    { c with loaded := if atEnd then loaded + 1 else loaded, blocks, front := c.look 0 }

def skip (c : Cursor) : Cursor :=
  { c with
    rest := c.rest.tail
    loaded := c.loaded - 1
    mark := { c.mark with index := c.mark.index + 1, column := c.mark.column + 1 }
    lineEnded := c.lineEnded && isBlank (c.look 0) }

def skipMany (c : Cursor) : Nat → Cursor
  | 0 => c
  | n + 1 => c.skip.skipMany n

def breakWidth (c : Cursor) : Nat := if c.look 0 = '\r' && c.look 1 = '\n' then 2 else 1

def skipBreak (c : Cursor) : Cursor :=
  { c with
    rest := c.rest.drop c.breakWidth
    loaded := c.loaded - c.breakWidth
    mark := ⟨c.mark.index + c.breakWidth, c.mark.line + 1, 0⟩
    lineEnded := true }

/-- The line end here as it stands in values: separators stay, all others are line feeds. -/
def breakText (c : Cursor) : List Char :=
  let b := c.look 0
  if b.toNat = 0x2028 || b.toNat = 0x2029 then [b] else ['\n']

def atDocumentMark (c : Cursor) (m : Char) : Bool :=
  c.mark.column = 0 && c.look 0 = m && c.look 1 = m && c.look 2 = m && isGap (c.look 3)

end Cursor

/-! ## Readings -/

abbrev Reading := StateT Cursor (Except Malformed)

namespace Reading

/-- Looks at the next characters, so many of them. -/
def need (count : Nat) : Reading Unit := do
  let c := (← get).load count
  set c
  match c.fault with
  | some fault => if c.loaded < count then throw (.unplaced fault)
  | none => return ()

/-- Looks for so many characters, which may not be there. -/
def reach (count : Nat) : Reading Unit := modify (·.load count)

def look (ahead : Nat) : Reading Char := return (← get).look ahead

def mark : Reading Mark := return (← get).mark

def skip : Reading Unit := modify Cursor.skip

/-- A token that started at a mark goes wrong here. -/
def fail {α : Type} (start : Mark) (fault : Fault) : Reading α := do
  throw (.inToken start (← mark) fault)

/-- Takes characters while a condition holds of what is ahead, at most so many. -/
def takeUpTo (p : Cursor → Bool) : Nat → Reading (List Char)
  | 0 => do
    need 1
    return []
  | n + 1 => do
    need 1
    let c ← get
    if p c then
      skip
      return c.look 0 :: (← takeUpTo p n)
    else return []

def takeWhile (p : Char → Bool) : Reading (List Char) := do
  takeUpTo (fun c => p (c.look 0)) ((← get).size + 1)

def skipWhile (p : Char → Bool) : Reading Unit := do
  let _ ← takeWhile p

def takeBreak : Reading (List Char) := do
  need 2
  let c ← get
  set c.skipBreak
  return c.breakText

def commentReach : Nat := 512

/-- Skips a comment that follows on the line, unless the line has ended. -/
def skipLineComment : Reading Unit := do
  let c ← get
  if c.lineEnded then return ()
  let blanks := (c.rest.takeWhile isBlank).length
  reach (min (blanks + 1) commentReach)
  if blanks < commentReach && c.look blanks = '#' then
    skipWhile isBlank
    skipWhile (!isBreakOrEnd ·)

/-- Passes blanks and line ends up to a place. The number bounds how many there are. -/
def skipGapTo (index : Nat) : Nat → Reading Unit
  | 0 => return ()
  | n + 1 => do
    need 1
    let c ← get
    if c.mark.index < index then
      if isBreak (c.look 0) then
        let _ ← takeBreak
      else skip
      skipGapTo index n

/-- Skips a comment and those that follow on lines of their own, with nothing but blanks
between. The number bounds how many there are. -/
def skipComments : Nat → Reading Unit
  | 0 => return ()
  | n + 1 => do
    skipWhile (!isBreakOrEnd ·)
    let c ← get
    let gap := (c.rest.takeWhile fun b => isBlank b || b == '\n' || b == '\r').length
    reach (min (max (gap + 1) 2) commentReach)
    if 0 < gap && gap < commentReach && c.look gap = '#' then
      skipGapTo (c.mark.index + gap) (gap + 1)
      skipComments n

/-- Skips to the next token: blanks, comments and line ends. Tabs count as blanks in flow, or
where no key may start. A line end lets a key start unless in flow. The result tells whether
a key may start. As long as there is a byte order mark at the front of the window, each line
loses its first character. -/
def skipToToken (inFlow : Bool) : Nat → Bool → Reading Bool
  | 0, keyAllowed => return keyAllowed
  | n + 1, keyAllowed => do
    need 1
    let c ← get
    if c.mark.column = 0 && c.front = byteOrderMark then skip
    skipWhile fun b => b == ' ' || ((inFlow || !keyAllowed) && b == '\t')
    if (← look 0) = '#' then skipComments ((← get).size + 1)
    if isBreak (← look 0) then
      let _ ← takeBreak
      skipToToken inFlow n (keyAllowed || !inFlow)
    else return keyAllowed

end Reading

end Lox.Yaml
