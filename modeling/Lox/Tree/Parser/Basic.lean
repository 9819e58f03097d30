/-
  Lox.Tree.Parser.Basic — reading tokens from left to right. A parser sees the tokens that
  are left, and the context it stands in; what it reports goes out as it is made. It may
  reject what it sees: the declaration around it then skips ahead (`recovering`). The
  functions that are being read form a stack, which `inFunction` pushes and pops; `inClass`
  puts back the class that was being read. Both happen on every way out.

  Nesting is bounded by a number that counts down, and so are repetitions; where more
  tokens are left than the bound allows, parsing is abandoned as `exhausted`. Every phrase
  takes a token before it nests or repeats, so a bound above the number of tokens suffices.
-/

import Lox.Report
import Lox.Tree

namespace Lox

inductive FunctionKind where
  | plain
  | method
  | initializer
  deriving DecidableEq, Repr

namespace FunctionKind

/-- What a function turns out to be once its name is known. -/
def named (kind : FunctionKind) (name : Bytes) : FunctionKind :=
  if kind = .method ∧ name = initializerName then .initializer else kind

def missingName : FunctionKind → SyntaxFault
  | .plain => .expectedFunctionName
  | _ => .expectedMethodName

end FunctionKind

inductive EnclosingClass where
  | outside
  | base
  | derived
  deriving DecidableEq, Repr

structure Context where
  /-- The functions around the point, innermost first. -/
  functions : List FunctionKind := []
  enclosingClass : EnclosingClass := .outside
  deriving DecidableEq, Repr

structure ParserState where
  rest : List Token
  /-- The line on which the text ends. -/
  endLine : Nat
  context : Context := {}
  /-- How many errors have been counted, those in scanning the text included. -/
  errors : Nat := 0

def ParserState.tallied (s : ParserState) : ParserState := { s with errors := s.errors + 1 }

/-- How a parser leaves off. Reports are kept oldest first. -/
inductive ParserOutcome (α : Type) where
  | read (a : α) (s : ParserState) (reports : List Report)
  /-- The phrase was given up, for the reason reported last. -/
  | rejected (s : ParserState) (earlier : List Report) (reason : Report)
  /-- There were more tokens than the bound allows. -/
  | exhausted

def ParserOutcome.after {α : Type} (reports : List Report) : ParserOutcome α → ParserOutcome α
  | .read a s later => .read a s (reports ++ later)
  | .rejected s later reason => .rejected s (reports ++ later) reason
  | .exhausted => .exhausted

def Parser (α : Type) : Type := ParserState → ParserOutcome α

namespace Parser

variable {α : Type}

instance : Monad Parser where
  pure a := fun s => .read a s []
  bind p f := fun s =>
    match p s with
    | .read a s' reports => (f a s').after reports
    | .rejected s' earlier reason => .rejected s' earlier reason
    | .exhausted => .exhausted

def exhausted : Parser α := fun _ => .exhausted

def context : Parser Context := fun s => .read s.context s []

def atEnd : Parser Bool := fun s => .read s.rest.isEmpty s []

def check (kind : TokenKind) : Parser Bool := fun s => .read (s.rest.head?.any (·.kind == kind)) s []

def atBodyEnd : Parser Bool := fun s => .read (s.rest.head?.all (·.kind == .rightBrace)) s []

/-- Takes the next token if `select` makes something of it. -/
def take? (select : Token → Option α) : Parser (Option α) := fun s =>
  match s.rest with
  | [] => .read none s []
  | t :: rest =>
    match select t with
    | some a => .read (some a) { s with rest } []
    | none => .read none s []

def accept? (kind : TokenKind) : Parser (Option Token) := take? fun t => if t.kind = kind then some t else none

def accept (kind : TokenKind) : Parser Bool := Option.isSome <$> accept? kind

def faultAt (t : Token) (fault : SyntaxFault) : Report := ⟨t.line, .atLexeme t.lexeme, .syntactic fault⟩

def faultHere (fault : SyntaxFault) (s : ParserState) : Report :=
  match s.rest with
  | t :: _ => faultAt t fault
  | [] => ⟨s.endLine, .atEnd, .syntactic fault⟩

def reportAt (t : Token) (fault : SyntaxFault) : Parser Unit := fun s => .read () s.tallied [faultAt t fault]

def reportHere (fault : SyntaxFault) : Parser Unit := fun s => .read () s.tallied [faultHere fault s]

def reject (fault : SyntaxFault) : Parser α := fun s => .rejected s.tallied [] (faultHere fault s)

def expect (kind : TokenKind) (fault : SyntaxFault) : Parser Token := do
  match ← accept? kind with
  | some t => return t
  | none => reject fault

def expectName (fault : SyntaxFault) : Parser Name := do
  let t ← expect .identifier fault
  return ⟨t.lexeme, t.line⟩

def after? (kind : TokenKind) (p : Parser α) : Parser (Option α) := do
  if ← accept kind then some <$> p else return none

/-- A phrase, unless the token that ends its place comes at once. -/
def unless? (stop : TokenKind) (p : Parser α) : Parser (Option α) := do
  if ← check stop then return none else some <$> p

/-- Runs a parser in a context that is changed before and changed back afterwards, however
it leaves off. -/
def bracketed (enter leave : Context → Context) (p : Parser α) : Parser α := fun s =>
  match p { s with context := enter s.context } with
  | .read a s' reports => .read a { s' with context := leave s'.context } reports
  | .rejected s' earlier reason => .rejected { s' with context := leave s'.context } earlier reason
  | .exhausted => .exhausted

def inFunction (kind : FunctionKind) (p : Parser α) : Parser α :=
  bracketed (fun c => { c with functions := kind :: c.functions }) (fun c => { c with functions := c.functions.tail }) p

def inClass (enclosing : EnclosingClass) (p : Parser α) : Parser α := do
  let outer := (← context).enclosingClass
  bracketed (fun c => { c with enclosingClass := enclosing }) (fun c => { c with enclosingClass := outer }) p

/-- Can a statement or declaration start with this? After a fault, reading goes on there. -/
def startsStatement : TokenKind → Bool
  | .class_ | .fun_ | .var_ | .for_ | .if_ | .while_ | .print_ | .return_ => true
  | _ => false

/-- Skips to the first token that can start a statement, or past the first semicolon. -/
def skipStatement : List Token → List Token
  | [] => []
  | t :: rest =>
    if startsStatement t.kind then t :: rest
    else if t.kind = .semicolon then rest
    else skipStatement rest

def synchronize : List Token → List Token
  | [] => []
  | t :: rest => if t.kind = .semicolon then rest else skipStatement rest

/-- Reads a declaration. If it is rejected, it is dropped and reading goes on behind it. -/
def recovering (p : Parser Stmt) : Parser (Option Stmt) := fun s =>
  match p s with
  | .read statement s' reports => .read (some statement) s' reports
  | .rejected s' earlier reason => .read none { s' with rest := synchronize s'.rest } (earlier ++ [reason])
  | .exhausted => .exhausted

/-- The parsers for phrases inside the one at hand, and how many tokens they may meet. -/
structure Inner where
  bound : Nat
  expression : Parser Expr
  unary : Parser Expr
  statement : Parser Stmt
  declaration : Parser (Option Stmt)

def maxArguments : Nat := 255

/-- Reports a fault when one more is to follow the most that there may be. -/
def limit (count : Nat) (fault : SyntaxFault) : Parser Unit :=
  if count = maxArguments then reportHere fault else return ()

/-- What stands between commas up to a closing parenthesis, empty if that comes at once. -/
def listed (p : Parser (List α)) : Parser (List α) := (·.getD []) <$> unless? .rightParen p

end Parser

end Lox
