/-
  Lox.Number.Format — numbers as text. A literal is read as the nearest double. A double is
  written with its shortest digits in one of two layouts: always positional (`print`), or
  with an exponent when the value is very small or very large (`dump`).
-/

import Lox.Number.Shortest

namespace Lox.Number

/-- The value of a literal: digits, and perhaps a point and more digits. -/
def read (text : Bytes) : Float :=
  let whole := text.takeWhile Text.isDigit
  let fraction := (text.dropWhile Text.isDigit).drop 1
  Float.ofBits (Decimal.mk (Text.value (whole ++ fraction)) fraction.length).nearest.toUInt64

def zeros (n : Nat) : Bytes := List.replicate n 48

def positional (x : Digits) : Bytes :=
  let whole := if x.point ≤ 0 then [48] else x.digits.take x.point.toNat ++ zeros (x.point.toNat - x.digits.length)
  let fraction := if x.digits.isEmpty then [] else zeros (-x.point).toNat ++ x.digits.drop x.point.toNat
  if fraction.isEmpty then whole else whole ++ utf8 "." ++ fraction

/-- One digit before the point, and an exponent with a sign and at least two digits. -/
def scientific (x : Digits) : Bytes :=
  let exponent := x.point - 1
  let fraction := if x.digits.length ≤ 1 then [] else utf8 "." ++ x.digits.drop 1
  let size := Text.decimal exponent.natAbs
  x.digits.take 1 ++ fraction ++ utf8 (if exponent < 0 then "e-" else "e+") ++ zeros (2 - size.length) ++ size

/-- Positional from 0.0001 up to, but not including, a million. -/
def general (x : Digits) : Bytes :=
  if !x.digits.isEmpty && (x.point - 1 < -4 || 6 ≤ x.point - 1) then scientific x else positional x

def format (layout : Digits → Bytes) (x : Float) : Bytes :=
  let bits := x.toBits.toNat
  let size := bits % signBit
  if infinity < size then utf8 "NaN"
  else if size = infinity then utf8 (if signBit ≤ bits then "-Inf" else "+Inf")
  else utf8 (if signBit ≤ bits then "-" else "") ++ layout (shortest size)

/-- The form in which programs print numbers. -/
def print (x : Float) : Bytes := format positional x

/-- The form in which token lists show numbers. -/
def dump (x : Float) : Bytes := format general x

end Lox.Number
