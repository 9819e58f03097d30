/-
  Lox.Diagnostics — reports as lines of text, plain or for a terminal with colors.
-/

import Lox.Report

namespace Lox

inductive Style where
  | plain
  | colored
  deriving DecidableEq, Repr

namespace Diagnostics

/-- A text between a terminal's switch to an appearance and the switch back. -/
def painted (style : Style) (appearance : String) (text : Bytes) : Bytes :=
  match style with
  | .plain => text
  | .colored => utf8 "\x1b[" ++ utf8 appearance ++ utf8 "m" ++ text ++ utf8 "\x1b[0m"

def dim : String := "2"

def red : String := "31"

def reportLine (style : Style) (line : Int) (place message : Bytes) : Bytes :=
  painted style dim (utf8 "[line " ++ Text.decimalInt line ++ utf8 "]") ++ utf8 " "
    ++ painted style red (utf8 "Error") ++ place ++ utf8 ": " ++ message ++ utf8 "\n"

def errorLine (style : Style) (message : Bytes) : Bytes :=
  painted style red (utf8 "error") ++ utf8 ": " ++ message ++ utf8 "\n"

end Diagnostics

def Report.text (style : Style) (r : Report) : Bytes :=
  Diagnostics.reportLine style r.line r.place.text r.fault.message

end Lox
