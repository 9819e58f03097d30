/-
  Lox.Proofs.Lexical — the lexical rules of the language. `Lexeme kind text` says which texts
  are a token of which kind, one token at a time and whatever stands around it. `Fits s rest`
  says that the segment `s` is right at the front of a text when `rest` follows it: a token
  is the longest one that starts there, and a character is unexpected only where nothing
  else starts. `Scanned` goes through a text from left to right, and keeps segments, tokens,
  reports and lines in step.

  Code points are those of the core library, with its encoding; nothing here speaks of how
  the text is scanned.
-/

import Lox.Token.Scan

namespace Lox

/-- How operators and keywords are written. The other kinds have no fixed spelling. -/
def TokenKind.spelling : TokenKind → Option String
  | .leftParen => some "("
  | .rightParen => some ")"
  | .leftBrace => some "\x7b"
  | .rightBrace => some "\x7d"
  | .comma => some ","
  | .dot => some "."
  | .minus => some "-"
  | .plus => some "+"
  | .semicolon => some ";"
  | .slash => some "/"
  | .star => some "*"
  | .bang => some "!"
  | .bangEqual => some "!="
  | .equal => some "="
  | .equalEqual => some "=="
  | .greater => some ">"
  | .greaterEqual => some ">="
  | .less => some "<"
  | .lessEqual => some "<="
  | .and_ => some "and"
  | .class_ => some "class"
  | .else_ => some "else"
  | .false_ => some "false"
  | .fun_ => some "fun"
  | .for_ => some "for"
  | .if_ => some "if"
  | .nil_ => some "nil"
  | .or_ => some "or"
  | .print_ => some "print"
  | .return_ => some "return"
  | .super_ => some "super"
  | .this_ => some "this"
  | .true_ => some "true"
  | .var_ => some "var"
  | .while_ => some "while"
  | .identifier | .string | .number => none

namespace Lexical

open Segment (isAlpha isWordByte)

/-! ## Tokens -/

inductive Lexeme : TokenKind → Bytes → Prop
  | fixed {kind : TokenKind} {spelling : String} : kind.spelling = some spelling → Lexeme kind (utf8 spelling)
  | identifier {c : UInt8} {word : Bytes} :
      isAlpha c = true → (∀ b ∈ word, isWordByte b = true) →
      (∀ kind : TokenKind, ∀ spelling ∈ kind.spelling, c :: word ≠ utf8 spelling) → Lexeme .identifier (c :: word)
  | whole {digits : Bytes} : digits ≠ [] → (∀ d ∈ digits, Text.isDigit d = true) → Lexeme .number digits
  | decimal {digits fraction : Bytes} :
      digits ≠ [] → (∀ d ∈ digits, Text.isDigit d = true) → fraction ≠ [] → (∀ d ∈ fraction, Text.isDigit d = true) →
      Lexeme .number (digits ++ utf8 "." ++ fraction)
  | string {content : Bytes} :
      Text.quoteMark ∉ content → Lexeme .string (Text.quoteMark :: content ++ [Text.quoteMark])

/-! ## Segments -/

/-- The character before `rest`: a code point, or one byte where no code point starts. -/
inductive Character : Bytes → Bytes → Prop
  | point {rest : Bytes} (c : Char) : Character (String.utf8EncodeChar c) rest
  | stray {b : UInt8} {rest : Bytes} : (∀ c : Char, ¬ String.utf8EncodeChar c <+: b :: rest) → Character [b] rest

def blanks : Bytes := utf8 " \t\r\n"

def commentMark : Bytes := utf8 "//"

/-- The segment is right at the front of a text in which `rest` follows it. -/
inductive Fits : Segment → Bytes → Prop
  /-- A token takes all it can get. Two slashes are the start of a comment. -/
  | token {kind : TokenKind} {lexeme rest : Bytes} :
      Lexeme kind lexeme →
      (∀ kind' lexeme', Lexeme kind' lexeme' → lexeme' <+: lexeme ++ rest → lexeme'.length ≤ lexeme.length) →
      ¬ commentMark <+: lexeme ++ rest → Fits ⟨.token kind, lexeme⟩ rest
  | blank {c : UInt8} {rest : Bytes} : c ∈ blanks → Fits ⟨.blank, [c]⟩ rest
  /-- A comment goes on to the end of its line, which is not part of it. -/
  | comment {body rest : Bytes} :
      Text.newline ∉ body → rest = [] ∨ rest.head? = some Text.newline → Fits ⟨.comment, commentMark ++ body⟩ rest
  /-- A character is unexpected where no token, blank or string starts. -/
  | unexpected {char rest : Bytes} :
      Character char rest → (∀ b ∈ char, b ∉ blanks ∧ b ≠ Text.quoteMark) →
      (∀ kind lexeme, Lexeme kind lexeme → ¬ lexeme <+: char ++ rest) → Fits ⟨.unexpected, char⟩ rest
  /-- A string without an end takes all that is left. -/
  | unterminated {content : Bytes} : Text.quoteMark ∉ content → Fits ⟨.unterminated, Text.quoteMark :: content⟩ []

/-! ## Texts -/

/-- The text after `seen` falls into these segments, which stand for these tokens and call
for these reports. Tokens and reports are on the line where their segment ends. -/
inductive Scanned : Bytes → Bytes → List Segment → List Token → List Report → Prop
  | done {seen : Bytes} : Scanned seen [] [] [] []
  | token {kind : TokenKind} {seen lexeme rest : Bytes} {segments : List Segment} {tokens : List Token}
      {reports : List Report} :
      Fits ⟨.token kind, lexeme⟩ rest → Scanned (seen ++ lexeme) rest segments tokens reports →
      Scanned seen (lexeme ++ rest) (⟨.token kind, lexeme⟩ :: segments)
        (⟨kind, lexeme, 1 + (seen ++ lexeme).count Text.newline⟩ :: tokens) reports
  | blank {seen text rest : Bytes} {segments : List Segment} {tokens : List Token} {reports : List Report} :
      Fits ⟨.blank, text⟩ rest → Scanned (seen ++ text) rest segments tokens reports →
      Scanned seen (text ++ rest) (⟨.blank, text⟩ :: segments) tokens reports
  | comment {seen text rest : Bytes} {segments : List Segment} {tokens : List Token} {reports : List Report} :
      Fits ⟨.comment, text⟩ rest → Scanned (seen ++ text) rest segments tokens reports →
      Scanned seen (text ++ rest) (⟨.comment, text⟩ :: segments) tokens reports
  | unexpected {seen char rest : Bytes} {segments : List Segment} {tokens : List Token} {reports : List Report} :
      Fits ⟨.unexpected, char⟩ rest → Scanned (seen ++ char) rest segments tokens reports →
      Scanned seen (char ++ rest) (⟨.unexpected, char⟩ :: segments) tokens
        (⟨1 + (seen ++ char).count Text.newline, .unplaced, .lexical .unexpectedCharacter⟩ :: reports)
  | unterminated {seen text : Bytes} :
      Fits ⟨.unterminated, text⟩ [] →
      Scanned seen text [⟨.unterminated, text⟩] []
        [⟨1 + (seen ++ text).count Text.newline, .unplaced, .lexical .unterminatedString⟩]

end Lexical

end Lox
