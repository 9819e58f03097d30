/-
  Lox.Token.Scan — a text split into segments: tokens, blanks, comments, characters that
  fit nowhere, and perhaps a string that never ends. The split is lossless
  (`Segment.split_flatMap_text`). Tokens and reports are read off the segments while lines are
  counted: each takes the line on which its segment ends.
-/

import Lox.Report
import Lox.Text.Utf8

namespace Lox

inductive SegmentKind where
  | token (kind : TokenKind)
  | blank
  | comment
  | unexpected
  | unterminated
  deriving DecidableEq, Repr

structure Segment where
  kind : SegmentKind
  text : Bytes
  deriving DecidableEq, Repr

namespace Segment

def isBlankByte (c : UInt8) : Bool := c == 32 || c == 13 || c == 9 || c == Text.newline

def isAlpha (c : UInt8) : Bool :=
  ('a'.toUInt8 ≤ c && c ≤ 'z'.toUInt8) || ('A'.toUInt8 ≤ c && c ≤ 'Z'.toUInt8) || c == '_'.toUInt8

def isWordByte (c : UInt8) : Bool := isAlpha c || Text.isDigit c

/-- The length of the number that goes on with `rest` after its first digit. A point belongs
to it only if a digit follows. -/
def numberTail (rest : Bytes) : Bytes :=
  let whole := rest.takeWhile Text.isDigit
  match rest.dropWhile Text.isDigit with
  | p :: d :: more =>
    if p = '.'.toUInt8 && Text.isDigit d then whole ++ p :: (d :: more).takeWhile Text.isDigit else whole
  | _ => whole

/-- The operator that starts with `c`, and the bytes it takes from `rest`. -/
def operator (kind : TokenKind) (rest : Bytes) : TokenKind × Bytes :=
  match kind.withEqual?, rest with
  | some longer, e :: _ => if e = '='.toUInt8 then (longer, [e]) else (kind, [])
  | _, _ => (kind, [])

/-- The segment that starts with byte `c` when `rest` follows. -/
def front (c : UInt8) (rest : Bytes) : Segment :=
  if isBlankByte c then ⟨.blank, [c]⟩
  else if c = '/'.toUInt8 && rest.head? == some '/'.toUInt8 then
    ⟨.comment, c :: rest.takeWhile (· != Text.newline)⟩
  else if c = Text.quoteMark then
    let content := rest.takeWhile (· != Text.quoteMark)
    match rest.dropWhile (· != Text.quoteMark) with
    | q :: _ => ⟨.token .string, c :: content ++ [q]⟩
    | [] => ⟨.unterminated, c :: content⟩
  else if Text.isDigit c then ⟨.token .number, c :: numberTail rest⟩
  else if isAlpha c then
    let word := c :: rest.takeWhile isWordByte
    ⟨.token (TokenKind.ofWord word), word⟩
  else match TokenKind.symbols.lookup c with
    | some kind =>
      let (found, more) := operator kind rest
      ⟨.token found, c :: more⟩
    | none => ⟨.unexpected, (Utf8.first c rest).bytes⟩

def afterFront (c : UInt8) (rest : Bytes) : Bytes := rest.drop ((front c rest).text.length - 1)

theorem afterFront_length_le (c : UInt8) (rest : Bytes) : (afterFront c rest).length ≤ rest.length := by
  simp [afterFront]

def split : Bytes → List Segment
  | [] => []
  | c :: rest => front c rest :: split (afterFront c rest)
termination_by s => s.length
decreasing_by
  have := afterFront_length_le c rest
  simp only [List.length_cons]
  omega

def newlines (s : Segment) : Nat := s.text.count Text.newline

end Segment

structure Scan where
  tokens : List Token
  reports : List Report
  endLine : Nat
  /-- How many errors have been counted. -/
  errors : Nat

namespace Scan

def reportAt (line : Nat) : SegmentKind → Option Report
  | .unexpected => some ⟨line, .unplaced, .lexical .unexpectedCharacter⟩
  | .unterminated => some ⟨line, .unplaced, .lexical .unterminatedString⟩
  | _ => none

def tokenAt (line : Nat) (s : Segment) : Option Token :=
  match s.kind with
  | .token kind => some ⟨kind, s.text, line⟩
  | _ => none

/-- Counts an error and reports it, before what follows in the text. -/
def error (report : Report) (scan : Scan) : Scan :=
  { scan with reports := report :: scan.reports, errors := scan.errors + 1 }

def ofSegments (line : Nat) : List Segment → Scan
  | [] => ⟨[], [], line, 0⟩
  | s :: rest =>
    let next := line + s.newlines
    let scan := ofSegments next rest
    let scan := { scan with tokens := (tokenAt next s).toList ++ scan.tokens }
    match reportAt next s.kind with
    | some report => scan.error report
    | none => scan

theorem ofSegments_cons (line : Nat) (s : Segment) (rest : List Segment) :
    ofSegments line (s :: rest) =
      let next := line + s.newlines
      let scan := ofSegments next rest
      let reports := (reportAt next s.kind).toList
      ⟨(tokenAt next s).toList ++ scan.tokens, reports ++ scan.reports, scan.endLine, scan.errors + reports.length⟩ := by
  rw [ofSegments]
  dsimp only
  cases reportAt (line + s.newlines) s.kind <;> rfl

end Scan

def scan (source : Bytes) : Scan := Scan.ofSegments 1 (Segment.split source)

def Scan.dump (s : Scan) : List Bytes := s.tokens.map Token.dump ++ [Token.endMark s.endLine]

end Lox
