/-
  Lox.Text.Utf8 — code points and their bytes. A text splits into characters
  (`Utf8.chars`): each is a code point with its bytes, or one byte that begins no
  well-formed sequence. The split loses nothing (`chars_flatMap_bytes`).
-/

import Lox.Text.Basic

namespace Lox.Utf8

def isTail (b : UInt8) : Bool := 0x80 ≤ b && b ≤ 0xBF

def low (b : UInt8) : Nat := b.toNat % 64

/-- The bytes that may follow the first byte of a longer sequence: they keep out the
overlong forms, the surrogates and what lies above U+10FFFF. -/
def isSecond (a b : UInt8) : Bool :=
  if a = 0xE0 then 0xA0 ≤ b && b ≤ 0xBF
  else if a = 0xED then 0x80 ≤ b && b ≤ 0x9F
  else if a = 0xF0 then 0x90 ≤ b && b ≤ 0xBF
  else if a = 0xF4 then 0x80 ≤ b && b ≤ 0x8F
  else isTail b

/-- A character of a text. -/
inductive Char where
  | point (code : Nat) (bytes : Bytes)
  | stray (byte : UInt8)
  deriving DecidableEq, Repr

def Char.bytes : Char → Bytes
  | .point _ bs => bs
  | .stray b => [b]

/-- The character that starts with byte `a` when `rest` follows. -/
def first (a : UInt8) (rest : Bytes) : Char :=
  if a < 0x80 then .point a.toNat [a]
  else if 0xC2 ≤ a && a ≤ 0xDF then
    match rest with
    | b :: _ => if isSecond a b then .point (a.toNat % 32 * 64 + low b) [a, b] else .stray a
    | [] => .stray a
  else if 0xE0 ≤ a && a ≤ 0xEF then
    match rest with
    | b :: c :: _ =>
      if isSecond a b && isTail c then .point ((a.toNat % 16 * 64 + low b) * 64 + low c) [a, b, c]
      else .stray a
    | _ => .stray a
  else if 0xF0 ≤ a && a ≤ 0xF4 then
    match rest with
    | b :: c :: d :: _ =>
      if isSecond a b && isTail c && isTail d then
        .point (((a.toNat % 8 * 64 + low b) * 64 + low c) * 64 + low d) [a, b, c, d]
      else .stray a
    | _ => .stray a
  else .stray a

def afterFirst (a : UInt8) (rest : Bytes) : Bytes := rest.drop ((first a rest).bytes.length - 1)

theorem first_bytes_append (a : UInt8) (rest : Bytes) : (first a rest).bytes ++ afterFirst a rest = a :: rest := by
  unfold afterFirst first
  repeat' split
  all_goals simp [Char.bytes]

theorem afterFirst_length_le (a : UInt8) (rest : Bytes) : (afterFirst a rest).length ≤ rest.length := by
  simp [afterFirst]

def chars : Bytes → List Char
  | [] => []
  | a :: rest => first a rest :: chars (afterFirst a rest)
termination_by s => s.length
decreasing_by
  have := afterFirst_length_le a rest
  simp only [List.length_cons]
  omega

@[simp] theorem chars_nil : chars [] = [] := by rw [chars]

theorem chars_flatMap_bytes (s : Bytes) : (chars s).flatMap Char.bytes = s := by
  fun_induction chars s with
  | case1 => rfl
  | case2 a rest ih => rw [List.flatMap_cons, ih, first_bytes_append]

def Char.isPoint : Char → Bool
  | .point _ _ => true
  | .stray _ => false

def isValid (s : Bytes) : Bool := (chars s).all Char.isPoint

def encode (code : Nat) : Bytes :=
  if code < 0x80 then [UInt8.ofNat code]
  else if code < 0x800 then [UInt8.ofNat (0xC0 + code / 64), UInt8.ofNat (0x80 + code % 64)]
  else if code < 0x10000 then
    [UInt8.ofNat (0xE0 + code / 4096), UInt8.ofNat (0x80 + code / 64 % 64), UInt8.ofNat (0x80 + code % 64)]
  else
    [UInt8.ofNat (0xF0 + code / 262144), UInt8.ofNat (0x80 + code / 4096 % 64),
      UInt8.ofNat (0x80 + code / 64 % 64), UInt8.ofNat (0x80 + code % 64)]

def replacement : Nat := 0xFFFD

end Lox.Utf8
