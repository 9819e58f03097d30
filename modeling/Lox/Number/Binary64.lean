/-
  Lox.Number.Binary64 — the doubles as natural numbers. The bits of a nonnegative double,
  read as a number, grow with its value; `nearest` gives those of the double closest to a
  ratio, the even one of two that are equally close, and infinity above the largest.
-/

namespace Lox.Number

def infinity : Nat := 0x7FF0000000000000

def signBit : Nat := 0x8000000000000000

/-- A quotient rounded to the nearest integer, a half to the even one. -/
def roundDiv (num den : Nat) : Nat :=
  let q := num / den
  let r := num % den
  if 2 * r < den then q else if den < 2 * r then q + 1 else q + q % 2

/-- Multiplies the ratio `num / den` by `2 ^ (-e)`. -/
def scaleDown (num den : Nat) (e : Int) : Nat × Nat :=
  match e with
  | .ofNat k => (num, den * Nat.pow 2 k)
  | .negSucc k => (num * Nat.pow 2 (k + 1), den)

/-- The exponent of the power of two at or below a positive ratio. -/
def floorLog (num den : Nat) : Int :=
  let estimate : Int := (num.log2 : Int) - den.log2
  let (n, d) := scaleDown num den estimate
  if d ≤ n then estimate else estimate - 1

/-- The weight of a double's last bit, as an exponent of two: 53 bits of precision, and no
finer than the smallest double. -/
def unitExponent (num den : Nat) : Int := max (floorLog num den - 52) (-1074)

def nearest (num den : Nat) : Nat :=
  if num = 0 then 0
  else
    let e := unitExponent num den
    let (n, d) := scaleDown num den e
    min ((e + 1074).toNat * Nat.pow 2 52 + roundDiv n d) infinity

/-- A finite double as an integer times a power of two. -/
structure Dyadic where
  mantissa : Nat
  exponent : Int
  deriving DecidableEq, Repr

def ofBits (bits : Nat) : Dyadic :=
  if bits < Nat.pow 2 52 then ⟨bits, -1074⟩
  else ⟨bits % Nat.pow 2 52 + Nat.pow 2 52, ((bits / Nat.pow 2 52 : Nat) : Int) - 1075⟩

/-- A decimal fraction `numeral / 10 ^ places`. -/
structure Decimal where
  numeral : Nat
  places : Nat
  deriving DecidableEq, Repr

def Dyadic.toDecimal (x : Dyadic) : Decimal :=
  match x.exponent with
  | .ofNat k => ⟨x.mantissa * Nat.pow 2 k, 0⟩
  | .negSucc k => ⟨x.mantissa * Nat.pow 5 (k + 1), k + 1⟩

def Decimal.nearest (x : Decimal) : Nat := Number.nearest x.numeral (Nat.pow 10 x.places)

end Lox.Number
