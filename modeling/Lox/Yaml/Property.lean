/-
  Lox.Yaml.Property — what is said about a node or a document rather than in it: names
  given and referred to, tags, and directives.
-/

import Lox.Yaml.Cursor

namespace Lox.Yaml

/-! ## Names -/

/-- Can this stand behind a name? -/
def endsName (c : Char) : Bool :=
  isGap c || c == '?' || c == ':' || c == ',' || c == ']' || c == closeBrace || c == '%' || c == '@' ||
    c.toNat == 0x60

def takeName : Reading Bytes := do
  let start ← Reading.mark
  Reading.skip
  let name ← Reading.takeWhile isNameChar
  if name.isEmpty || !endsName (← Reading.look 0) then Reading.fail start .expectedName
  return bytesOf name

/-! ## Tags -/

/-- A tag as written: the handle stands for the start of the full tag. -/
structure TagText where
  handle : Bytes
  suffix : Bytes
  deriving DecidableEq, Repr

def isTagChar (c : Char) : Bool :=
  isNameChar c || c == ';' || c == '/' || c == '?' || c == ':' || c == '@' || c == '&' || c == '=' || c == '+' ||
    c == '$' || c == ',' || c == '.' || c == '!' || c == '~' || c == '*' || c == apostrophe || c == '(' ||
    c == ')' || c == '[' || c == ']' || c == '%'

/-- Takes a byte written as a percent sign and two digits. -/
def takeOctet (start : Mark) : Reading UInt8 := do
  Reading.need 3
  let c ← get
  match c.look 0, hexValue? (c.look 1), hexValue? (c.look 2) with
  | '%', some high, some low => return UInt8.ofNat (16 * high + low)
  | _, _, _ => Reading.fail start .expectedTagOctet

def takeTrailing (start : Mark) : Nat → Reading Bytes
  | 0 => return []
  | n + 1 => do
    let octet ← takeOctet start
    if octet &&& 0xC0 != 0x80 then Reading.fail start .invalidTagTrailingByte
    modify (·.skipMany 3)
    return octet :: (← takeTrailing start n)

def takeEscaped (start : Mark) : Reading Bytes := do
  let octet ← takeOctet start
  match Front.width? octet with
  | none => Reading.fail start .invalidTagLeadingByte
  | some width =>
    modify (·.skipMany 3)
    return octet :: (← takeTrailing start (width - 1))

def takeTagChars (start : Mark) : Nat → Reading Bytes
  | 0 => return []
  | n + 1 => do
    Reading.need 1
    let c ← Reading.look 0
    if c = '%' then
      let bytes ← takeEscaped start
      return bytes ++ (← takeTagChars start n)
    else if isTagChar c then
      Reading.skip
      return bytesOf [c] ++ (← takeTagChars start n)
    else return []

def takeFullTag (start : Mark) : Reading Bytes := do
  let c ← get
  let found ← takeTagChars start (c.size + 1)
  if found.isEmpty then Reading.fail start .expectedTag
  return found

/-- Takes an exclamation mark, the name behind it, and the exclamation mark that makes a
handle of them. A directive has nothing but handles. -/
def takeHandle (start : Mark) (inDirective : Bool) : Reading (List Char × Bool) := do
  Reading.need 1
  if (← Reading.look 0) ≠ '!' then Reading.fail start .expectedExclamation
  Reading.skip
  let name ← Reading.takeWhile isNameChar
  if (← Reading.look 0) = '!' then
    Reading.skip
    return (('!' :: name) ++ ['!'], true)
  else
    if inDirective && !name.isEmpty then Reading.fail start .expectedExclamation
    return ('!' :: name, false)

def takeTag : Reading TagText := do
  let start ← Reading.mark
  Reading.need 2
  let tag ← if (← Reading.look 1) = '<' then do
      Reading.skip
      Reading.skip
      let suffix ← takeFullTag start
      if (← Reading.look 0) ≠ '>' then Reading.fail start .expectedTagEnd
      Reading.skip
      pure ⟨[], suffix⟩
    else do
      let (handle, complete) ← takeHandle start false
      if complete then
        let suffix ← takeFullTag start
        pure ⟨bytesOf handle, suffix⟩
      else
        let c ← get
        let suffix := bytesOf handle.tail ++ (← takeTagChars start (c.size + 1))
        pure (if suffix.isEmpty then ⟨[], utf8 "!"⟩ else ⟨utf8 "!", suffix⟩)
  Reading.need 1
  if !isGap (← Reading.look 0) then Reading.fail start .expectedBlankOrLineEnd
  return tag

/-! ## Directives -/

inductive Directive where
  | version (major minor : Nat)
  | handle (handle expansion : Bytes)
  deriving DecidableEq, Repr

def takeVersionNumber (start : Mark) : Reading Nat := do
  let digits ← Reading.takeUpTo (fun c => (c.look 0).isDigit) 2
  if (← Reading.look 0).isDigit then Reading.fail start .longVersion
  if digits.isEmpty then Reading.fail start .expectedVersion
  return digits.foldl (fun v d => 10 * v + (d.toNat - 48)) 0

def takeVersion (start : Mark) : Reading Directive := do
  Reading.skipWhile isBlank
  let major ← takeVersionNumber start
  if (← Reading.look 0) ≠ '.' then Reading.fail start .expectedDot
  Reading.skip
  return .version major (← takeVersionNumber start)

def takeHandleDirective (start : Mark) : Reading Directive := do
  Reading.skipWhile isBlank
  let (handle, _) ← takeHandle start true
  Reading.need 1
  if !isBlank (← Reading.look 0) then Reading.fail start .expectedBlank
  Reading.skipWhile isBlank
  let expansion ← takeFullTag start
  Reading.need 1
  if !isGap (← Reading.look 0) then Reading.fail start .expectedBlankOrLineEnd
  return .handle (bytesOf handle) expansion

def takeDirective : Reading Directive := do
  let start ← Reading.mark
  Reading.skip
  let name ← Reading.takeWhile isNameChar
  if name.isEmpty then Reading.fail start .expectedDirectiveName
  if !isGap (← Reading.look 0) then Reading.fail start .unexpectedInDirectiveName
  let directive ← if name = "YAML".toList then takeVersion start
    else if name = "TAG".toList then takeHandleDirective start
    else Reading.fail start .unknownDirective
  Reading.skipWhile isBlank
  if (← Reading.look 0) = '#' then Reading.skipWhile (!isBreakOrEnd ·)
  if !isBreakOrEnd (← Reading.look 0) then Reading.fail start .expectedLineEnd
  if isBreak (← Reading.look 0) then
    let _ ← Reading.takeBreak
  return directive

end Lox.Yaml
