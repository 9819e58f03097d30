/-
  Lox.Log — log levels and lines. A line holds a time, a level, a message and fields sorted
  by name; a value is quoted unless it is made of plain characters only.
-/

import Lox.Session
import Lox.Text.Lowercase
import Lox.Text.Quoted

namespace Lox

inductive LogLevel where
  | panic | fatal | error | warn | info | debug | trace
  deriving DecidableEq, Repr

namespace LogLevel

def words : List (Bytes × LogLevel) := [
  (utf8 "panic", .panic), (utf8 "fatal", .fatal), (utf8 "error", .error), (utf8 "warn", .warn),
  (utf8 "warning", .warn), (utf8 "info", .info), (utf8 "debug", .debug), (utf8 "trace", .trace)]

def ofText? (text : Bytes) : Option LogLevel := words.lookup (Text.lowercase text)

/-- All entries of this program are meant for debugging. -/
def showsDebug : LogLevel → Bool
  | .debug | .trace => true
  | _ => false

end LogLevel

namespace Log

/-- A character that needs no quotes around it. -/
def isPlain (c : UInt8) : Bool :=
  Text.isDigit c || Segment.isAlpha c || (utf8 "-./@^+").contains c

def fieldText (value : Bytes) : Bytes := if value.all isPlain then value else Text.quote value

def field (name : String) (value : Bytes) : Bytes := utf8 name ++ utf8 "=" ++ fieldText value

def line (time : Bytes) (message : String) (fields : List (String × Bytes)) : Bytes :=
  let pairs := [("time", time), ("level", utf8 "debug"), ("msg", utf8 message)] ++ fields
  Text.join (utf8 " ") (pairs.map fun p => field p.1 p.2) ++ utf8 "\n"

def valueText : LogValue → Bytes
  | .count n => Text.decimal n
  | .text s => s

def eventLine (time : Bytes) (e : LogEvent) : Bytes :=
  line time e.message (e.fields.map fun f => (f.1, valueText f.2))

end Log

end Lox
