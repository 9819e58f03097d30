/-
  Lox.History — the inputs of earlier and present sessions, oldest first. An input is kept
  on one line, and not twice in a row; only the last thousand are kept.
-/

import Lox.Text.Utf8

namespace Lox

/-- The lines of a text. A line ends with a newline and perhaps a carriage return before it;
what follows the last newline is a line if there is anything. -/
def Text.lines (s : Bytes) : List Bytes :=
  let pieces := Text.splitOn Text.newline s
  let ended := pieces.dropLast.map fun l => if l.getLast? == some 13 then l.dropLast else l
  match pieces.getLast? with
  | some last => if last.isEmpty then ended else ended ++ [last]
  | none => ended

structure History where
  entries : List Bytes := []
  deriving DecidableEq, Repr

namespace History

def limit : Nat := 1000

/-- Lines of a history file are shorter than this, a carriage return at the end included. -/
def lineLimit : Nat := 4096

def keepLast (entries : List Bytes) : List Bytes := entries.drop (entries.length - limit)

def isReadable (line : Bytes) : Bool := Utf8.isValid line && line.length < lineLimit

/-- Reads a history file up to the first line that cannot be read. -/
def ofText (content : Bytes) : History :=
  let readable := (Text.splitOn Text.newline content).takeWhile isReadable
  ⟨keepLast ((Text.lines content).take readable.length)⟩

def toText (h : History) : Bytes := Text.unlines h.entries

def flatten (input : Bytes) : Bytes := input.map fun c => if c = Text.newline then 32 else c

/-- Records an input, unless it is the same as the last one. -/
def record (h : History) (input : Bytes) : History :=
  let entry := flatten input
  if h.entries.getLast? == some entry then h else ⟨keepLast (h.entries ++ [entry])⟩

end History

end Lox
