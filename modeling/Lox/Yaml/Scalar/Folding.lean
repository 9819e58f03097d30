/-
  Lox.Yaml.Scalar.Folding — blanks and line ends inside a scalar. Blanks between two words
  of a line stay as they are; a single line end becomes a space, and of several the first
  one goes.
-/

import Lox.Yaml.Cursor

namespace Lox.Yaml

structure Gap where
  blanks : List Char := []
  /-- Has a line ended? Blanks do not count then. -/
  broken : Bool := false
  firstBreak : List Char := []
  moreBreaks : List Char := []

namespace Gap

/-- Line ends as they stand in the value. Only a line feed is folded. -/
def foldBreaks (first more : List Char) : List Char :=
  if first.head? = some '\n' then (if more.isEmpty then [' '] else more) else first ++ more

def fold (g : Gap) : List Char := if g.broken then foldBreaks g.firstBreak g.moreBreaks else g.blanks

def addBlank (g : Gap) (c : Char) : Gap := if g.broken then g else { g with blanks := g.blanks ++ [c] }

def addBreak (g : Gap) (b : List Char) : Gap :=
  if g.broken then { g with moreBreaks := g.moreBreaks ++ b }
  else { g with blanks := [], broken := true, firstBreak := b }

end Gap

/-- Takes blanks and line ends. After a line end no tab may stand before the column, if one
is given for a scalar that starts at the mark. The first number bounds the characters. -/
def takeGap (indentation : Option (Mark × Int)) : Nat → Gap → Reading Gap
  | 0, gap => return gap
  | n + 1, gap => do
    Reading.need 1
    let c ← Reading.look 0
    if isBlank c then
      match indentation with
      | some (start, column) =>
        if gap.broken && c = '\t' && (← Reading.mark).column < column then Reading.fail start .tabInIndentation
      | none => pure ()
      Reading.skip
      takeGap indentation n (gap.addBlank c)
    else if isBreak c then
      let b ← Reading.takeBreak
      takeGap indentation n (gap.addBreak b)
    else return gap

end Lox.Yaml
