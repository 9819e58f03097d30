/-
  Lox.Yaml.Scalar.Plain — scalars without quotes. They end at a comment, at a colon before
  a gap, at a bracket or comma in flow, and where a line is indented too little.
-/

import Lox.Yaml.Scalar.Folding

namespace Lox.Yaml.Plain

def isFlowMark (c : Char) : Bool :=
  c == ',' || c == '?' || c == '[' || c == ']' || c == openBrace || c == closeBrace

/-- Does a word end before this character, when that one comes next? -/
def endsWord (inFlow : Bool) (c next : Char) : Bool :=
  isGap c || (c == ':' && isGap next) || (inFlow && isFlowMark c)

def takeWord (inFlow : Bool) : Nat → Reading (List Char)
  | 0 => return []
  | n + 1 => do
    let c ← get
    if endsWord inFlow (c.look 0) (c.look 1) then return []
    else
      Reading.skip
      Reading.need 2
      return c.look 0 :: (← takeWord inFlow n)

/-- Takes words and the gaps between them. The result tells whether a line end follows. -/
def takeWords (inFlow : Bool) (start : Mark) (column : Int) : Nat → List Char → Gap → Reading (List Char × Bool)
  | 0, text, gap => return (text, gap.broken)
  | n + 1, text, gap => do
    Reading.need 4
    let c ← get
    if c.atDocumentMark '-' || c.atDocumentMark '.' || c.look 0 = '#' then return (text, gap.broken)
    let word ← takeWord inFlow (c.size + 1)
    let text := if word.isEmpty then text else text ++ gap.fold ++ word
    let gap := if word.isEmpty then gap else {}
    let c ← get
    if !(isBlank (c.look 0) || isBreak (c.look 0)) then return (text, gap.broken)
    let gap ← takeGap (some (start, column)) (c.size + 1) gap
    if !inFlow && (← Reading.mark).column < column then return (text, gap.broken)
    takeWords inFlow start column n text gap

def take (inFlow : Bool) (indent : Int) : Reading (Bytes × Bool) := do
  let c ← get
  let (text, broken) ← takeWords inFlow c.mark (indent + 1) (c.size + 1) [] {}
  return (bytesOf text, broken)

def canStart (inFlow : Bool) (c next : Char) : Bool :=
  let reserved := isGap c || c.toNat == 0x60 || c == apostrophe || c == quotation || isFlowMark c ||
    c == '-' || c == ':' || c == '#' || c == '&' || c == '*' || c == '!' || c == '|' || c == '>' || c == '%' ||
    c == '@'
  !reserved || (c == '-' && !isBlank next) || (!inFlow && (c == '?' || c == ':') && !isGap next)

end Lox.Yaml.Plain
