/-
  Lox.Number.Shortest — the fewest decimal digits that read back as a given double; of two
  such numerals the nearer one, of two equally near the even one.
-/

import Lox.Number.Binary64
import Lox.Text.Basic

namespace Lox.Number

def readsBack (bits places numeral zeros : Nat) : Bool :=
  (Decimal.mk (numeral * Nat.pow 10 zeros) places).nearest == bits

/-- The numeral that stands for `exact` once its last `drop` digits are gone: one of the two
neighbours that read back, if any. -/
def neighbour? (bits : Nat) (exact : Decimal) (drop : Nat) : Option Nat :=
  let unit := Nat.pow 10 drop
  let below := exact.numeral / unit
  let rest := exact.numeral % unit
  match readsBack bits exact.places below drop, readsBack bits exact.places (below + 1) drop with
  | true, false => some below
  | false, true => some (below + 1)
  | false, false => none
  | true, true =>
    if 2 * rest < unit then some below
    else if unit < 2 * rest then some (below + 1)
    else some (below + below % 2)

/-- Tries to leave out `drop` digits, then one fewer, and so on. The result is a numeral and
the count of zeros it has lost. -/
def shorten (bits : Nat) (exact : Decimal) : Nat → Nat × Nat
  | 0 => (exact.numeral, 0)
  | drop + 1 =>
    match neighbour? bits exact (drop + 1) with
    | some numeral => (numeral, drop + 1)
    | none => shorten bits exact drop

/-- Decimal digits without trailing zeros, and where the point goes: the value is
`0.digits` times `10 ^ point`. Zero has no digits. -/
structure Digits where
  digits : Bytes
  point : Int
  deriving DecidableEq, Repr

def stripZeros (digits : Bytes) : Bytes := (digits.reverse.dropWhile (· == 48)).reverse

def shortest (bits : Nat) : Digits :=
  let exact := (ofBits bits).toDecimal
  let (numeral, zeros) := shorten bits exact ((Text.decimal exact.numeral).length - 1)
  let digits := Text.decimal numeral
  ⟨stripZeros digits, (digits.length : Int) + zeros - exact.places⟩

end Lox.Number
