/-
  Lox.Yaml.Scalar.Block — scalars that are blocks of indented lines. A literal one keeps
  its lines; a folded one joins them. A sign after the indicator says what becomes of the
  line ends behind the last line, and a digit how far the lines are indented.
-/

import Lox.Yaml.Scalar.Folding

namespace Lox.Yaml.BlockScalar

/-- What becomes of the last line ends: all go, one stays, or all stay. -/
inductive Chomping where
  | strip
  | clip
  | keep
  deriving DecidableEq, Repr

def chomping? (c : Char) : Option Chomping :=
  if c = '+' then some .keep else if c = '-' then some .strip else none

def takeChomping : Reading (Option Chomping) := do
  Reading.need 1
  let found := chomping? (← Reading.look 0)
  if found.isSome then Reading.skip
  return found

def takeIncrement (start : Mark) : Reading (Option Nat) := do
  Reading.need 1
  let c ← Reading.look 0
  if !c.isDigit then return none
  if c = '0' then Reading.fail start .zeroIndentation
  Reading.skip
  return some (c.toNat - 48)

def takeHeader (start : Mark) : Reading (Chomping × Option Nat) := do
  match ← takeChomping with
  | some chomping => return (chomping, ← takeIncrement start)
  | none =>
    match ← takeIncrement start with
    | none => return (.clip, none)
    | some increment => return ((← takeChomping).getD .clip, some increment)

def takeLineEnd (start : Mark) : Reading Unit := do
  Reading.skipWhile isBlank
  if (← Reading.look 0) = '#' then Reading.skipWhile (!isBreakOrEnd ·)
  if !isBreakOrEnd (← Reading.look 0) then Reading.fail start .expectedLineEnd
  if isBreak (← Reading.look 0) then
    let _ ← Reading.takeBreak

/-- Takes indentation and empty lines. The column is where the lines start, if that is known.
The result has the line ends and the greatest column met. -/
def takeEmptyLines (start : Mark) (column : Option Nat) : Nat → List Char → Nat → Reading (List Char × Nat)
  | 0, breaks, widest => return (breaks, widest)
  | n + 1, breaks, widest => do
    let short := fun (c : Cursor) => column.all (c.mark.column < ·)
    let c ← get
    let _ ← Reading.takeUpTo (fun c => short c && c.look 0 = ' ') (c.size + 1)
    let c ← get
    let widest := max widest c.mark.column
    if short c && c.look 0 = '\t' then Reading.fail start .tabBeforeBlock
    if !isBreak (c.look 0) then return (breaks, widest)
    let b ← Reading.takeBreak
    takeEmptyLines start column n (breaks ++ b) widest

structure Lines where
  text : List Char := []
  lastBreak : List Char := []
  emptyLines : List Char := []
  /-- Did the last line start with a blank? -/
  indented : Bool := false

/-- Adds a line. In a folded scalar the line end before it becomes a space, unless one of the
two lines starts with a blank. -/
def Lines.add (lines : Lines) (literal : Bool) (line : List Char) : Lines :=
  let blank := line.head?.any isBlank
  let folds := !literal && !lines.indented && !blank && lines.lastBreak.head? == some '\n'
  let joint := if folds then (if lines.emptyLines.isEmpty then [' '] else []) else lines.lastBreak
  { text := lines.text ++ joint ++ lines.emptyLines ++ line, indented := blank }

def takeLines (start : Mark) (literal : Bool) (column : Nat) : Nat → Lines → Reading Lines
  | 0, lines => return lines
  | n + 1, lines => do
    let c ← get
    if c.mark.column ≠ column || isEnd (c.look 0) then return lines
    let line ← Reading.takeWhile (!isBreakOrEnd ·)
    Reading.need 2
    let lines := lines.add literal line
    let lastBreak ← if isBreak (← Reading.look 0) then Reading.takeBreak else pure []
    let c ← get
    let (emptyLines, _) ← takeEmptyLines start (some column) (c.size + 1) [] 0
    takeLines start literal column n { lines with lastBreak, emptyLines }

def take (literal : Bool) (indent : Int) : Reading Bytes := do
  let start ← Reading.mark
  Reading.skip
  let (chomping, increment) ← takeHeader start
  takeLineEnd start
  let known := increment.map fun (k : Nat) => if 0 ≤ indent then (indent + k).toNat else k
  let c ← get
  let (emptyLines, widest) ← takeEmptyLines start known (c.size + 1) [] 0
  let column := known.getD (max (max widest (indent + 1).toNat) 1)
  let c ← get
  let lines ← takeLines start literal column (c.size + 1) { emptyLines }
  return bytesOf (match chomping with
    | .strip => lines.text
    | .clip => lines.text ++ lines.lastBreak
    | .keep => lines.text ++ lines.lastBreak ++ lines.emptyLines)

end Lox.Yaml.BlockScalar
