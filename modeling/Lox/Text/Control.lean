/-
  Lox.Text.Control — the code points that no prompt may hold: controls, format characters,
  surrogates, private use and what is not assigned. They are the ones that are neither
  printable nor separators.
-/

import Lox.Text.Printable

namespace Lox.Text

def isSeparator (code : Nat) : Bool :=
  code == 0x20 || code == 0xA0 || code == 0x1680 || (0x2000 ≤ code && code ≤ 0x200A) ||
  code == 0x2028 || code == 0x2029 || code == 0x202F || code == 0x205F || code == 0x3000

def isControl (code : Nat) : Bool := !isPrintable code && !isSeparator code

end Lox.Text
