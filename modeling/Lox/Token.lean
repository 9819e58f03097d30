/-
  Lox.Token — the tokens of a program. Operators and keywords have a fixed spelling,
  which the scanner reads from tables (`TokenKind.symbols`, `TokenKind.keywords`). A token's
  line is the one where it ends. The end of the text is not a token; dumps show it as a last
  line of its own (`Token.endMark`).
-/

import Lox.Number.Format

namespace Lox

inductive TokenKind where
  | leftParen | rightParen | leftBrace | rightBrace
  | comma | dot | minus | plus | semicolon | slash | star
  | bang | bangEqual | equal | equalEqual | greater | greaterEqual | less | lessEqual
  | identifier | string | number
  | and_ | class_ | else_ | false_ | fun_ | for_ | if_ | nil_ | or_ | print_ | return_ | super_ | this_ | true_
  | var_ | while_
  deriving DecidableEq, Repr

namespace TokenKind

/-- The kinds in the order of their numbers; the first has number one. -/
def all : List TokenKind := [
  .leftParen, .rightParen, .leftBrace, .rightBrace, .comma, .dot, .minus, .plus, .semicolon, .slash, .star,
  .bang, .bangEqual, .equal, .equalEqual, .greater, .greaterEqual, .less, .lessEqual,
  .identifier, .string, .number,
  .and_, .class_, .else_, .false_, .fun_, .for_, .if_, .nil_, .or_, .print_, .return_, .super_, .this_, .true_,
  .var_, .while_]

def name : TokenKind → String
  | .leftParen => "LEFT_PAREN"
  | .rightParen => "RIGHT_PAREN"
  | .leftBrace => "LEFT_CURLY_BRACE"
  | .rightBrace => "RIGHT_CURLY_BRACE"
  | .comma => "COMMA"
  | .dot => "DOT"
  | .minus => "MINUS"
  | .plus => "PLUS"
  | .semicolon => "SEMICOLON"
  | .slash => "SLASH"
  | .star => "STAR"
  | .bang => "BANG"
  | .bangEqual => "BANG_EQUAL"
  | .equal => "EQUAL"
  | .equalEqual => "EQUAL_EQUAL"
  | .greater => "GREATER"
  | .greaterEqual => "GREATER_EQUAL"
  | .less => "LESS"
  | .lessEqual => "LESS_EQUAL"
  | .identifier => "IDENTIFIER"
  | .string => "STRING"
  | .number => "NUMBER"
  | .and_ => "AND"
  | .class_ => "CLASS"
  | .else_ => "ELSE"
  | .false_ => "FALSE"
  | .fun_ => "FUN"
  | .for_ => "FOR"
  | .if_ => "IF"
  | .nil_ => "NIL"
  | .or_ => "OR"
  | .print_ => "PRINT"
  | .return_ => "RETURN"
  | .super_ => "SUPER"
  | .this_ => "THIS"
  | .true_ => "TRUE"
  | .var_ => "VAR"
  | .while_ => "WHILE"

/-- The single-byte operators. A longer operator starts with one of them and an equals sign. -/
def symbols : List (UInt8 × TokenKind) := [
  ('('.toUInt8, .leftParen), (')'.toUInt8, .rightParen), (Text.openBrace, .leftBrace), (Text.closeBrace, .rightBrace),
  (','.toUInt8, .comma), ('.'.toUInt8, .dot), ('-'.toUInt8, .minus), ('+'.toUInt8, .plus),
  (';'.toUInt8, .semicolon), ('/'.toUInt8, .slash), ('*'.toUInt8, .star), ('!'.toUInt8, .bang),
  ('='.toUInt8, .equal), ('>'.toUInt8, .greater), ('<'.toUInt8, .less)]

/-- The operator that an equals sign makes of a shorter one. -/
def withEqual? : TokenKind → Option TokenKind
  | .bang => some .bangEqual
  | .equal => some .equalEqual
  | .greater => some .greaterEqual
  | .less => some .lessEqual
  | _ => none

def keywords : List (Bytes × TokenKind) := [
  (utf8 "and", .and_), (utf8 "class", .class_), (utf8 "else", .else_), (utf8 "false", .false_),
  (utf8 "fun", .fun_), (utf8 "for", .for_), (utf8 "if", .if_), (utf8 "nil", .nil_), (utf8 "or", .or_),
  (utf8 "print", .print_), (utf8 "return", .return_), (utf8 "super", .super_), (utf8 "this", .this_),
  (utf8 "true", .true_), (utf8 "var", .var_), (utf8 "while", .while_)]

def ofWord (word : Bytes) : TokenKind := (keywords.lookup word).getD .identifier

/-- The name of the kind with a given number. The end of the text has number zero. -/
def nameOfNumber (n : Int) : Bytes :=
  let unknown := utf8 "tokenType(" ++ Text.decimalInt n ++ utf8 ")"
  match n with
  | .ofNat 0 => utf8 "EOF"
  | .ofNat (k + 1) => (all[k]?.map fun kind => utf8 kind.name).getD unknown
  | .negSucc _ => unknown

end TokenKind

structure Token where
  kind : TokenKind
  lexeme : Bytes
  line : Nat
  deriving DecidableEq, Repr

inductive Literal where
  | nil
  | bool (b : Bool)
  | number (x : Float)
  | string (s : Bytes)

namespace Token

def content (t : Token) : Bytes := t.lexeme.tail.dropLast

def literal? (t : Token) : Option Literal :=
  match t.kind with
  | .number => some (.number (Number.read t.lexeme))
  | .string => some (.string t.content)
  | _ => none

def dumpWith (line : Nat) (kindName : Bytes) (lexeme : Bytes) : Bytes :=
  Text.decimal line ++ utf8 " " ++ kindName ++ utf8 " " ++ lexeme

def dump (t : Token) : Bytes :=
  let front := dumpWith t.line (utf8 t.kind.name) t.lexeme
  match t.kind with
  | .number => front ++ utf8 " " ++ Number.dump (Number.read t.lexeme)
  | .string => front ++ utf8 " " ++ t.content
  | _ => front

def endMark (line : Nat) : Bytes := dumpWith line (utf8 "EOF") []

end Token

end Lox
