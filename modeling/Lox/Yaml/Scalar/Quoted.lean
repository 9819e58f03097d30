/-
  Lox.Yaml.Scalar.Quoted — scalars in quotes. In single quotes a doubled quote stands for
  one; in double quotes a backslash starts an escape, and before a line end it joins the
  lines.
-/

import Lox.Yaml.Scalar.Folding

namespace Lox.Yaml.Quoted

def escapes : List (Char × Nat) := [
  ('0', 0), ('a', 7), ('b', 8), ('t', 9), ('\t', 9), ('n', 10), ('v', 11), ('f', 12), ('r', 13), ('e', 27),
  (' ', 32), (quotation, 0x22), (apostrophe, 0x27), (backslash, 0x5C), ('N', 0x85), ('_', 0xA0), ('L', 0x2028),
  ('P', 0x2029)]

def codeLength? (c : Char) : Option Nat :=
  if c = 'x' then some 2 else if c = 'u' then some 4 else if c = 'U' then some 8 else none

def hexNumber (start : Mark) (c : Cursor) (count : Nat) : Reading Nat := do
  match (List.range count).foldlM (fun v k => (hexValue? (c.look k)).map (16 * v + ·)) 0 with
  | some v => return v
  | none => Reading.fail start .expectedHexDigits

def takeEscape (start : Mark) : Reading Char := do
  let c ← Reading.look 1
  match escapes.lookup c, codeLength? c with
  | some code, _ =>
    Reading.skip
    Reading.skip
    return Char.ofNat code
  | none, some count =>
    Reading.skip
    Reading.skip
    Reading.need count
    let code ← hexNumber start (← get) count
    if (0xD800 ≤ code && code ≤ 0xDFFF) || 0x10FFFF < code then Reading.fail start .invalidEscapedCode
    modify (·.skipMany count)
    return Char.ofNat code
  | none, none => Reading.fail start .unknownEscape

/-- Takes characters up to a gap or the closing quote. The result tells whether an escaped
line end came last. -/
def takeWord (start : Mark) (quote : Char) : Nat → Reading (List Char × Bool)
  | 0 => return ([], false)
  | n + 1 => do
    let c ← get
    let here := c.look 0
    if isGap here then return ([], false)
    else if here = quote then
      if quote = apostrophe && c.look 1 = apostrophe then
        Reading.skip
        Reading.skip
        Reading.need 2
        let (more, joined) ← takeWord start quote n
        return (apostrophe :: more, joined)
      else return ([], false)
    else if quote = quotation && here = backslash then
      if isBreak (c.look 1) then
        Reading.need 3
        Reading.skip
        let _ ← Reading.takeBreak
        return ([], true)
      else
        let escaped ← takeEscape start
        Reading.need 2
        let (more, joined) ← takeWord start quote n
        return (escaped :: more, joined)
    else
      Reading.skip
      Reading.need 2
      let (more, joined) ← takeWord start quote n
      return (here :: more, joined)

def takeWords (start : Mark) (quote : Char) : Nat → List Char → Reading (List Char)
  | 0, text => return text
  | n + 1, text => do
    Reading.need 4
    let c ← get
    if c.atDocumentMark '-' || c.atDocumentMark '.' then Reading.fail start .documentMarkInQuotes
    if isEnd (c.look 0) then Reading.fail start .endInQuotes
    let (word, joined) ← takeWord start quote (c.size + 1)
    Reading.need 1
    let text := text ++ word
    let c ← get
    if c.look 0 = quote then return text
    let gap ← takeGap none (c.size + 1) { broken := joined }
    takeWords start quote n (text ++ gap.fold)

def take (quote : Char) : Reading Bytes := do
  let c ← get
  Reading.skip
  let text ← takeWords c.mark quote (c.size + 1) []
  Reading.skip
  return bytesOf text

end Lox.Yaml.Quoted
