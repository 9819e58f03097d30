/-
  Lox.Yaml.Timestamp — dates, alone or with a time of day. The day must be one of the
  calendar; a time behind the letter T has a zone, a time behind blanks has none.
-/

import Lox.Text.Basic

namespace Lox.Yaml.Timestamp

/-- The number that starts a text, of one digit or two, and what is behind it. -/
def number? : Bytes → Option (Nat × Bytes)
  | [] => none
  | a :: rest =>
    if !Text.isDigit a then none
    else match rest with
      | b :: tail => if Text.isDigit b then some (10 * (a.toNat - 48) + (b.toNat - 48), tail) else some (a.toNat - 48, rest)
      | [] => some (a.toNat - 48, [])

def after? (b : UInt8) : Bytes → Option Bytes
  | [] => none
  | a :: rest => if a = b then some rest else none

def isLeapYear (year : Nat) : Bool := year % 4 == 0 && (year % 100 != 0 || year % 400 == 0)

def daysIn (year month : Nat) : Nat :=
  if month = 2 then (if isLeapYear year then 29 else 28)
  else if month = 4 || month = 6 || month = 9 || month = 11 then 30
  else 31

def date? (text : Bytes) : Option Bytes := do
  let year := text.takeWhile Text.isDigit
  if year.length ≠ 4 then none
  let rest ← after? 45 (text.drop 4)
  let (month, rest) ← number? rest
  let rest ← after? 45 rest
  let (day, rest) ← number? rest
  if 1 ≤ month && month ≤ 12 && 1 ≤ day && day ≤ daysIn (Text.value year) month then some rest else none

def afterFraction : Bytes → Bytes
  | mark :: d :: rest =>
    if (mark = 46 || mark = 44) && Text.isDigit d then rest.dropWhile Text.isDigit else mark :: d :: rest
  | text => text

def time? (text : Bytes) : Option Bytes := do
  let (hour, rest) ← number? text
  let (minute, rest) ← number? (← after? 58 rest)
  let (second, rest) ← number? (← after? 58 rest)
  if hour < 24 && minute < 60 && second < 60 then some (afterFraction rest) else none

/-- Is this a zone? Either the letter Z, or hours and minutes with a sign. -/
def isZone : Bytes → Bool
  | [90] => true
  | [sign, h, h', 58, m, m'] =>
    (sign == 43 || sign == 45) && [h, h', m, m'].all Text.isDigit && Text.value [h, h'] ≤ 24 &&
      Text.value [m, m'] ≤ 60
  | _ => false

def matches? (text : Bytes) : Option Unit := do
  match ← date? text with
  | [] => some ()
  | b :: rest =>
    if b = 84 || b = 116 then
      if isZone (← time? rest) then some () else none
    else if b = 32 then
      if (← time? (rest.dropWhile (· == 32))).isEmpty then some () else none
    else none

def isTimestamp (text : Bytes) : Bool := (matches? text).isSome

end Lox.Yaml.Timestamp
