/-
  Lox.Yaml.Source — the characters of a file. A byte order mark tells the encoding, which
  is UTF-8 without one. The file is taken in blocks, and a block with a fault in it gives no
  characters: the characters before it can be read, and whoever asks for more meets the
  fault.
-/

import Lox.Yaml.Fault

namespace Lox.Yaml

inductive Encoding where
  | utf8
  | utf16 (bigEndian : Bool)
  deriving DecidableEq, Repr

inductive Front where
  | char (c : Char) (rest : Bytes)
  | bad (fault : Fault)
  /-- A character that goes on beyond the bytes, and the fault if there are no more. -/
  | cut (fault : Fault)

/-- Everything printable, tabs, line ends, and what lies above Latin-1's controls. -/
def isAllowed (code : Nat) : Bool :=
  code == 0x09 || code == 0x0A || code == 0x0D || (0x20 ≤ code && code ≤ 0x7E) || code == 0x85 ||
  (0xA0 ≤ code && code ≤ 0xD7FF) || (0xE000 ≤ code && code ≤ 0xFFFD) ||
  (0x10000 ≤ code && code ≤ 0x10FFFF)

namespace Front

def ofCode (code : Nat) (rest : Bytes) : Front :=
  if isAllowed code then .char (Char.ofNat code) rest else .bad .controlCharacter

def width? (b : UInt8) : Option Nat :=
  if b < 0x80 then some 1
  else if b &&& 0xE0 = 0xC0 then some 2
  else if b &&& 0xF0 = 0xE0 then some 3
  else if b &&& 0xF8 = 0xF0 then some 4
  else none

def leadingBits (width : Nat) (b : UInt8) : Nat :=
  if width = 1 then b.toNat % 128
  else if width = 2 then b.toNat % 32
  else if width = 3 then b.toNat % 16
  else b.toNat % 8

def leastCode (width : Nat) : Nat :=
  if width = 1 then 0 else if width = 2 then 0x80 else if width = 3 then 0x800 else 0x10000

def ofUtf8 (b : UInt8) (rest : Bytes) : Front :=
  match width? b with
  | none => .bad .invalidLeadingByte
  | some width =>
    let tail := rest.take (width - 1)
    if tail.length < width - 1 then .cut .incompleteSequence
    else if tail.any fun t => t &&& 0xC0 != 0x80 then .bad .invalidTrailingByte
    else
      let code := tail.foldl (fun v t => 64 * v + t.toNat % 64) (leadingBits width b)
      if code < leastCode width then .bad .overlongSequence
      else if (0xD800 ≤ code && code ≤ 0xDFFF) || 0x10FFFF < code then .bad .invalidCodePoint
      else ofCode code (rest.drop (width - 1))

def isLowSurrogate (unit : Nat) : Bool := 0xDC00 ≤ unit && unit ≤ 0xDFFF

def isHighSurrogate (unit : Nat) : Bool := 0xD800 ≤ unit && unit ≤ 0xDBFF

def unit (bigEndian : Bool) (a b : UInt8) : Nat :=
  if bigEndian then 256 * a.toNat + b.toNat else 256 * b.toNat + a.toNat

def ofUtf16 (bigEndian : Bool) (a : UInt8) (rest : Bytes) : Front :=
  match rest with
  | [] => .cut .incompleteUnit
  | b :: rest =>
    let high := unit bigEndian a b
    if isLowSurrogate high then .bad .unexpectedLowSurrogate
    else if isHighSurrogate high then
      match rest with
      | c :: d :: rest =>
        let low := unit bigEndian c d
        if isLowSurrogate low then ofCode (0x10000 + 1024 * (high - 0xD800) + (low - 0xDC00)) rest
        else .bad .expectedLowSurrogate
      | _ => .cut .incompletePair
    else ofCode high rest

end Front

def Encoding.front (encoding : Encoding) (b : UInt8) (rest : Bytes) : Front :=
  match encoding with
  | .utf8 => .ofUtf8 b rest
  | .utf16 bigEndian => .ofUtf16 bigEndian b rest

/-- A block read to its end, or up to a character that goes on beyond it, or to a fault. -/
inductive Block where
  | whole (chars : List Char)
  | cut (chars : List Char) (rest : Bytes) (fault : Fault)
  | bad (fault : Fault)

def Block.cons (c : Char) : Block → Block
  | .whole chars => .whole (c :: chars)
  | .cut chars rest fault => .cut (c :: chars) rest fault
  | .bad fault => .bad fault

def readBlock (encoding : Encoding) : Nat → Bytes → Block
  | _, [] => .whole []
  | 0, _ => .whole []
  | n + 1, b :: rest =>
    match encoding.front b rest with
    | .char c rest => (readBlock encoding n rest).cons c
    | .cut fault => .cut [] (b :: rest) fault
    | .bad fault => .bad fault

/-- The characters that can be read, and the fault behind them; none is the end of the text. -/
structure Source where
  chars : List Char := []
  /-- How many characters each block has. -/
  blocks : List Nat := []
  fault : Option Fault := none

def Source.addBlock (source : Source) (chars : List Char) : Source :=
  { source with chars := chars ++ source.chars, blocks := chars.length :: source.blocks }

def blockSize : Nat := 512

/-- Reads block after block. What is left of a block that ends within a character counts
towards the next one. -/
def readBlocks (encoding : Encoding) : Nat → Nat → Bytes → Source
  | 0, _, _ => {}
  | n + 1, size, bytes =>
    if bytes.isEmpty then {}
    else
      match readBlock encoding size (bytes.take size) with
      | .bad fault => { fault := some fault }
      | .whole chars => (readBlocks encoding n blockSize (bytes.drop size)).addBlock chars
      | .cut chars rest fault =>
        let after := bytes.drop size
        let more := if after.isEmpty then { fault := some fault } else readBlocks encoding n blockSize (rest ++ after)
        more.addBlock chars

def Source.ofBytes (bytes : Bytes) : Source :=
  let read := fun (encoding : Encoding) (mark : Nat) =>
    readBlocks encoding (bytes.length + 1) (blockSize - mark) (bytes.drop mark)
  match bytes with
  | 0xEF :: 0xBB :: 0xBF :: _ => read .utf8 3
  | 0xFF :: 0xFE :: _ => read (.utf16 false) 2
  | 0xFE :: 0xFF :: _ => read (.utf16 true) 2
  | _ => read .utf8 0

end Lox.Yaml
