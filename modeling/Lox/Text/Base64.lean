/-
  Lox.Text.Base64 — bytes written as letters, six bits each. Line ends do not count, and
  the last group of four is filled up with equals signs.
-/

import Lox.Text.Basic

namespace Lox.Base64

def sextet? (b : UInt8) : Option Nat :=
  let n := b.toNat
  if 65 ≤ n && n ≤ 90 then some (n - 65)
  else if 97 ≤ n && n ≤ 122 then some (n - 71)
  else if 48 ≤ n && n ≤ 57 then some (n + 4)
  else if n = 43 then some 62
  else if n = 47 then some 63
  else none

def filler : UInt8 := 61

/-- The first so many bytes of a group of 24 bits. -/
def groupBytes (bits count : Nat) : Bytes :=
  [UInt8.ofNat (bits / 65536), UInt8.ofNat (bits / 256 % 256), UInt8.ofNat (bits % 256)].take count

def decodeGroups : Bytes → Option Bytes
  | [] => some []
  | a :: b :: c :: d :: rest => do
    let high := 64 * (← sextet? a) + (← sextet? b)
    if c = filler then
      if d = filler && rest.isEmpty then some (groupBytes (4096 * high) 1) else none
    else
      let high := 64 * high + (← sextet? c)
      if d = filler then
        if rest.isEmpty then some (groupBytes (64 * high) 2) else none
      else
        let bits := 64 * high + (← sextet? d)
        return groupBytes bits 3 ++ (← decodeGroups rest)
  | _ => none

def decode? (text : Bytes) : Option Bytes := decodeGroups (text.filter fun b => b != 10 && b != 13)

end Lox.Base64
