/-
  Lox.Text.Quoted — texts between double quotes. Printable characters stand for
  themselves; quotes, backslashes, control characters, unprintable characters and bytes
  that begin no character are written as escapes, so a quoted text is one line.
-/

import Lox.Text.Utf8
import Lox.Text.Printable

namespace Lox.Text

def escapeLetter? (code : Nat) : Option UInt8 :=
  match code with
  | 7 => some 'a'.toUInt8
  | 8 => some 'b'.toUInt8
  | 9 => some 't'.toUInt8
  | 10 => some 'n'.toUInt8
  | 11 => some 'v'.toUInt8
  | 12 => some 'f'.toUInt8
  | 13 => some 'r'.toUInt8
  | _ => none

/-- A code point that is not printable. -/
def escapePoint (code : Nat) : Bytes :=
  match escapeLetter? code with
  | some letter => [backslash, letter]
  | none =>
    if code < 0x80 then utf8 "\\x" ++ hex 2 code
    else if code < 0x10000 then utf8 "\\u" ++ hex 4 code
    else utf8 "\\U" ++ hex 8 code

def quoteChar : Utf8.Char → Bytes
  | .stray b => utf8 "\\x" ++ hex 2 b.toNat
  | .point code bytes =>
    if code = 0x22 || code = 0x5C then backslash :: bytes
    else if isPrintable code then bytes
    else escapePoint code

def quote (s : Bytes) : Bytes := quoteMark :: (Utf8.chars s).flatMap quoteChar ++ [quoteMark]

end Lox.Text
