/-
  Lox.Yaml.Tag — the type of a scalar. One without quotes has the type that its text looks
  like; a tag can ask for one of those types, and the text must then have it. Tags that are
  not known leave a text as it is.
-/

import Lox.Text.Base64
import Lox.Yaml.Fault
import Lox.Yaml.Timestamp

namespace Lox.Yaml

/-! ## Tags -/

namespace Tag

def str : Bytes := utf8 "!!str"
def null : Bytes := utf8 "!!null"
def bool : Bytes := utf8 "!!bool"
def int : Bytes := utf8 "!!int"
def float : Bytes := utf8 "!!float"
def timestamp : Bytes := utf8 "!!timestamp"
def binary : Bytes := utf8 "!!binary"
def merge : Bytes := utf8 "!!merge"
def seq : Bytes := utf8 "!!seq"
def map : Bytes := utf8 "!!map"

def standard : Bytes := utf8 "tag:yaml.org,2002:"

def short (tag : Bytes) : Bytes :=
  if standard.isPrefixOf tag then utf8 "!!" ++ tag.drop standard.length else tag

end Tag

/-! ## Integers -/

def isSign (b : UInt8) : Bool := b == 43 || b == 45

def unsigned : Bytes → Bytes
  | [] => []
  | b :: rest => if isSign b then rest else b :: rest

def isNegative : Bytes → Bool
  | 45 :: _ => true
  | _ => false

def digitValue? (b : UInt8) : Option Nat :=
  let n := b.toNat
  if 48 ≤ n && n ≤ 57 then some (n - 48)
  else if 97 ≤ n && n ≤ 122 then some (n - 87)
  else if 65 ≤ n && n ≤ 90 then some (n - 55)
  else none

def digitsValue? (base : Nat) (text : Bytes) : Option Nat :=
  if text.isEmpty then none
  else text.foldlM (fun v b => (digitValue? b).bind fun d => if d < base then some (base * v + d) else none) 0

/-- The size of an integer whose base is told by what it starts with. -/
def prefixedSize? : Bytes → Option Nat
  | 48 :: b :: rest =>
    if b = 120 || b = 88 then digitsValue? 16 rest
    else if b = 111 || b = 79 then digitsValue? 8 rest
    else if b = 98 || b = 66 then digitsValue? 2 rest
    else digitsValue? 8 (b :: rest)
  | text => digitsValue? 10 text

def fitsSigned (negative : Bool) (size : Nat) : Bool := if negative then size ≤ Nat.pow 2 63 else size < Nat.pow 2 63

def isSigned64 (text : Bytes) : Bool := (prefixedSize? (unsigned text)).any (fitsSigned (isNegative text))

def isUnsigned64 (text : Bytes) : Bool := (prefixedSize? text).any (· < Nat.pow 2 64)

def isMarked (mark : UInt8) (base : Nat) : Bytes → Bool
  | 48 :: b :: rest =>
    b == mark && ((digitsValue? base (unsigned rest)).any (fitsSigned (isNegative rest)) ||
      (digitsValue? base rest).any (· < Nat.pow 2 64))
  | _ => false

/-! ## Fractions -/

def exponent? : Bytes → Option Int
  | [] => some 0
  | e :: rest =>
    if e = 101 || e = 69 then
      let digits := unsigned rest
      if !digits.isEmpty && digits.all Text.isDigit then
        let size : Int := Text.value (digits.dropWhile (· == 48) |>.take 9)
        some (if isNegative rest then -size else size)
      else none
    else none

/-- Does the number written by digits, a point and an exponent stay below the greatest that
has 64 bits? -/
def isFinite (whole fraction : Bytes) (exponent : Int) : Bool :=
  let digits := (whole ++ fraction).dropWhile (· == 48)
  let scale := exponent - fraction.length
  if digits.isEmpty || (digits.length : Int) + scale < 300 then true
  else if 400 < (digits.length : Int) + scale then false
  else
    let size := Text.value digits
    let limit := Nat.pow 2 1024 - Nat.pow 2 970
    if 0 ≤ scale then size * Nat.pow 10 scale.toNat < limit else size < limit * Nat.pow 10 (-scale).toNat

/-- Is this a number with a point or an exponent, or only digits? -/
def isFloat (text : Bytes) : Bool :=
  let body := unsigned text
  let whole := body.takeWhile Text.isDigit
  let rest := body.dropWhile Text.isDigit
  let (fraction, rest, pointed) := match rest with
    | 46 :: tail => (tail.takeWhile Text.isDigit, tail.dropWhile Text.isDigit, true)
    | _ => ([], rest, false)
  if whole.isEmpty && (!pointed || fraction.isEmpty) then false
  else (exponent? rest).any (isFinite whole fraction)

/-- Do underscores stand between digits only? The flag says whether a digit came last. -/
def separatesDigits : Bool → Bytes → Bool
  | _, [] => true
  | lastDigit, b :: rest =>
    if b = 95 then lastDigit && rest.head?.any Text.isDigit && separatesDigits false rest
    else separatesDigits (Text.isDigit b) rest

def withoutUnderscores (text : Bytes) : Bytes := text.filter (· != 95)

/-! ## Types -/

inductive Meaning where
  | null
  | bool (b : Bool)
  | text (value : Bytes)
  | number (integer : Bool)
  | other
  deriving DecidableEq, Repr

structure Resolved where
  tag : Bytes
  meaning : Meaning
  deriving DecidableEq, Repr

/-- The words that are no texts. -/
def words : List (Bytes × Resolved) :=
  let of := fun (texts : List String) (found : Resolved) => texts.map fun t => (utf8 t, found)
  of ["", "~", "null", "Null", "NULL"] ⟨Tag.null, .null⟩ ++
  of ["true", "True", "TRUE"] ⟨Tag.bool, .bool true⟩ ++
  of ["false", "False", "FALSE"] ⟨Tag.bool, .bool false⟩ ++
  of [".nan", ".NaN", ".NAN", ".inf", ".Inf", ".INF", "+.inf", "+.Inf", "+.INF", "-.inf", "-.Inf", "-.INF"]
    ⟨Tag.float, .number false⟩

def numeric? (dated : Bool) (text : Bytes) : Option Resolved :=
  let plain := withoutUnderscores text
  if dated && Timestamp.isTimestamp text then some ⟨Tag.timestamp, .other⟩
  else if isSigned64 plain then some ⟨Tag.int, .number true⟩
  else if isUnsigned64 plain then some ⟨Tag.int, .number false⟩
  else if isFloat plain then some ⟨Tag.float, .number false⟩
  else if isMarked 98 2 plain || isMarked 111 8 plain then some ⟨Tag.int, .number true⟩
  else none

/-- The type that a text looks like. It can be a date only if that is asked for, or nothing
is. -/
def lookOf (dated : Bool) (text : Bytes) : Resolved :=
  let asText : Resolved := ⟨Tag.str, .text text⟩
  match words.lookup text, text with
  | some found, _ => found
  | none, 46 :: _ =>
    if separatesDigits false text && isFloat (withoutUnderscores text) then ⟨Tag.float, .number false⟩ else asText
  | none, b :: _ => if Text.isDigit b || isSign b then (numeric? dated text).getD asText else asText
  | none, [] => asText

def plainTag (text : Bytes) : Bytes := (lookOf true text).tag

/-- The types that a text can look like, other than a text. -/
def looks : List Bytes := [Tag.null, Tag.bool, Tag.int, Tag.float, Tag.timestamp]

/-- What a scalar with a tag means. Where the tag asks for a type that a text can look like,
the text must have it, though integers are good for fractions. Under any other tag a scalar is
a text, which `!!binary` has encoded. -/
def meaningOf (tag text : Bytes) : Except Fault Meaning :=
  if looks.contains tag then
    let found := lookOf (tag == Tag.timestamp) text
    if found.tag = tag || (tag = Tag.float && found.meaning = .number true) then .ok found.meaning
    else .error (.cannotRead found.tag text tag)
  else if tag = Tag.binary then
    match Base64.decode? text with
    | some bytes => .ok (.text bytes)
    | none => .error .invalidBinary
  else .ok (.text text)

end Lox.Yaml
