/-
  Lox.Text.Basic — texts are lists of bytes, well-formed UTF-8 or not. Constants are
  written as strings and turned into bytes by `utf8`; `Text.decimal` writes a natural
  number and `Text.value` reads one back.
-/

namespace Lox

abbrev Bytes := List UInt8

def utf8 (s : String) : Bytes := s.toUTF8.data.toList

namespace Text

def newline : UInt8 := 0x0A

def quoteMark : UInt8 := 0x22

def backslash : UInt8 := 0x5C

def openBrace : UInt8 := 0x7B

def closeBrace : UInt8 := 0x7D

def isDigit (c : UInt8) : Bool := 48 ≤ c && c ≤ 57

def digit (n : Nat) : UInt8 := UInt8.ofNat (48 + n % 10)

/-- The decimal digits of a number, the first one nonzero unless the number is zero. -/
def decimal (n : Nat) : Bytes :=
  if n < 10 then [digit n] else decimal (n / 10) ++ [digit n]
termination_by n
decreasing_by omega

def value (digits : Bytes) : Nat := digits.foldl (fun v d => 10 * v + (d.toNat - 48)) 0

def decimalInt : Int → Bytes
  | .ofNat n => decimal n
  | .negSucc n => utf8 "-" ++ decimal (n + 1)

/-- `width` hexadecimal digits, the last ones of the number. -/
def hex : Nat → Nat → Bytes
  | 0, _ => []
  | width + 1, n =>
    let d := n / Nat.pow 16 width % 16
    (if d < 10 then UInt8.ofNat (48 + d) else UInt8.ofNat (87 + d)) :: hex width n

def join (separator : Bytes) : List Bytes → Bytes
  | [] => []
  | [a] => a
  | a :: rest => a ++ separator ++ join separator rest

/-- The texts between the occurrences of a byte; there is always one more than occurrences. -/
def splitOn (c : UInt8) : Bytes → List Bytes
  | [] => [[]]
  | b :: rest =>
    if b = c then [] :: splitOn c rest
    else match splitOn c rest with
      | [] => [[b]]
      | piece :: pieces => (b :: piece) :: pieces

def unlines (lines : List Bytes) : Bytes := lines.flatMap (· ++ [newline])

def le : Bytes → Bytes → Bool
  | [], _ => true
  | _ :: _, [] => false
  | a :: s, b :: t => if a = b then le s t else a < b

theorem hex_length (width n : Nat) : (hex width n).length = width := by
  induction width with
  | zero => rfl
  | succ w ih => simp [hex, ih]

theorem splitOn_ne_nil (c : UInt8) (s : Bytes) : splitOn c s ≠ [] := by
  induction s with
  | nil => simp [splitOn]
  | cons b rest ih =>
    simp only [splitOn]
    split
    · simp
    · split <;> simp

end Text

end Lox
