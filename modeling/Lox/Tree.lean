/-
  Lox.Tree — the syntax tree of a program. Lines are kept only where a running program can
  report one: with names, operators, calls, and the words for the receiver and its
  superclass.
-/

import Lox.Token

namespace Lox

/-- A name as written on some line. -/
structure Name where
  text : Bytes
  line : Nat
  deriving DecidableEq, Repr

inductive UnaryOp where
  | negate
  | not
  deriving DecidableEq, Repr

inductive BinaryOp where
  | add | subtract | multiply | divide
  | equal | notEqual
  | greater | greaterEqual | less | lessEqual
  deriving DecidableEq, Repr

inductive LogicalOp where
  | and
  | or
  deriving DecidableEq, Repr

inductive Expr where
  | literal (value : Literal)
  | var (name : Name)
  | assign (name : Name) (value : Expr)
  | unary (op : UnaryOp) (line : Nat) (operand : Expr)
  | binary (op : BinaryOp) (line : Nat) (left right : Expr)
  | logical (op : LogicalOp) (left right : Expr)
  /-- The line is the one of the closing parenthesis. -/
  | call (callee : Expr) (arguments : List Expr) (line : Nat)
  | get (object : Expr) (name : Name)
  | set (object : Expr) (name : Name) (value : Expr)
  | this (line : Nat)
  | super (line : Nat) (method : Name)
  | group (inner : Expr)

mutual

inductive Stmt where
  | expression (e : Expr)
  | print (e : Expr)
  | var (name : Name) (initializer : Option Expr)
  | block (body : List Stmt)
  | ifElse (condition : Expr) (thenBranch : Stmt) (elseBranch : Option Stmt)
  | loop (condition : Expr) (body : Stmt)
  | function (declaration : FunctionDecl)
  | ret (value : Option Expr)
  | classDecl (name : Name) (superclass : Option Name) (methods : List FunctionDecl)

inductive FunctionDecl where
  | mk (name : Name) (parameters : List Name) (body : List Stmt)

end

namespace FunctionDecl

def name : FunctionDecl → Name
  | .mk n _ _ => n

def parameters : FunctionDecl → List Name
  | .mk _ ps _ => ps

def body : FunctionDecl → List Stmt
  | .mk _ _ b => b

end FunctionDecl

/-- The statement that a counting loop stands for: the increment follows the body, the
condition is true if absent, and the initializer has a scope of its own. -/
def Stmt.counting (initializer : Option Stmt) (condition increment : Option Expr) (body : Stmt) : Stmt :=
  let body := match increment with
    | some e => .block [body, .expression e]
    | none => body
  let loop := .loop (condition.getD (.literal (.bool true))) body
  match initializer with
  | some s => .block [s, loop]
  | none => loop

def initializerName : Bytes := utf8 "init"

def thisName : Bytes := utf8 "this"

def superName : Bytes := utf8 "super"

end Lox
