/-
  Lox.Text.Blank — white space by Unicode's property, and texts without it at their ends.
-/

import Lox.Text.Utf8

namespace Lox.Text

def isBlankPoint (code : Nat) : Bool :=
  (9 ≤ code && code ≤ 13) || code == 0x20 || code == 0x85 || code == 0xA0 || code == 0x1680 ||
  (0x2000 ≤ code && code ≤ 0x200A) || code == 0x2028 || code == 0x2029 || code == 0x202F ||
  code == 0x205F || code == 0x3000

/-- A byte that begins no character is not blank. -/
def isBlank : Utf8.Char → Bool
  | .point code _ => isBlankPoint code
  | .stray _ => false

def trim (s : Bytes) : Bytes :=
  ((((Utf8.chars s).dropWhile isBlank).reverse.dropWhile isBlank).reverse).flatMap Utf8.Char.bytes

end Lox.Text
