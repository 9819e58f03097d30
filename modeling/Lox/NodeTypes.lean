/-
  Lox.NodeTypes — writes the declarations of a family of tree nodes: an interface, a visitor
  with one method for each type, and a record with its acceptor for each type. The types of
  a family are given as lines `Name: field type, field type`.
-/

import Lox.CommandLine
import Lox.Text.Blank
import Lox.Text.Lowercase
import Lox.Text.Quoted

namespace Lox.NodeTypes

structure NodeType where
  name : Bytes
  fields : Bytes
  deriving DecidableEq, Repr

/-- Reads a line; none if it has no colon. What follows a second colon is left out. -/
def NodeType.ofText? (text : Bytes) : Option NodeType :=
  match Text.splitOn ':'.toUInt8 text with
  | name :: fields :: _ => some ⟨Text.trim name, Text.trim fields⟩
  | _ => none

/-- The name of a record: the type's, with its first byte taken as a code point and put in
lower case, before the family's. A type without a name has none. -/
def recordName? (family name : Bytes) : Option Bytes :=
  match name with
  | [] => none
  | first :: rest => some (Utf8.encode (Text.lowercasePoint first.toNat) ++ rest ++ family)

def NodeType.fieldList (t : NodeType) : List Bytes := (Text.splitOn ','.toUInt8 t.fields).map Text.trim

abbrev Layout := List Bytes → List Bytes

def asGiven : Layout := id

def splitField (field : Bytes) : Bytes × Bytes := (field.takeWhile (· != 32), (field.dropWhile (· != 32)).drop 1)

/-- Fields with their types in one column. -/
def aligned : Layout := fun fields =>
  let width := (fields.map fun f => (splitField f).1.length).foldl max 0
  fields.map fun f =>
    let (name, type) := splitField f
    name ++ List.replicate (width + 1 - name.length) 32 ++ type

def record? (layout : Layout) (family : Bytes) (t : NodeType) : Option Bytes := do
  let name ← recordName? family t.name
  let fields := (layout t.fieldList).flatMap fun f => utf8 "\t" ++ f ++ utf8 "\n"
  return utf8 "type " ++ name ++ utf8 " struct \x7b\n" ++ fields ++ utf8 "\x7d\n\n"
    ++ utf8 "func (s *" ++ name ++ utf8 ") accept(visitor " ++ Text.lowercase family ++ utf8 "Visitor) R \x7b\n"
    ++ utf8 "\treturn visitor.visit" ++ t.name ++ family ++ utf8 "(s)\n\x7d\n\n"

def visit? (family : Bytes) (t : NodeType) : Option Bytes := do
  let name ← recordName? family t.name
  return utf8 "\tvisit" ++ t.name ++ family ++ utf8 "(" ++ Text.lowercase family ++ utf8 " *" ++ name ++ utf8 ") R\n"

/-- The declarations of a family; none if one of its types cannot be read. -/
def generate? (layout : Layout) (family : Bytes) (types : List Bytes) : Option Bytes := do
  let lower := Text.lowercase family
  let types ← types.mapM NodeType.ofText?
  let visits ← types.mapM (visit? family)
  let records ← types.mapM (record? layout family)
  return utf8 "// Code generated by cmd/ast. DO NOT EDIT.\n\npackage internal\n\n"
    ++ utf8 "type " ++ lower ++ utf8 " interface \x7b\n\taccept(" ++ lower ++ utf8 "Visitor) R\n\x7d\n\n"
    ++ utf8 "type " ++ lower ++ utf8 "Visitor interface \x7b\n" ++ visits.flatten ++ utf8 "\x7d\n\n"
    ++ records.flatten

def statements : List Bytes := [
  utf8 "Block: stmts []stmt",
  utf8 "Class: name *token, superclass *variableExpr, methods []*fnStmt",
  utf8 "Expr: expression expr",
  utf8 "Fn: name *token, params []*token, body []stmt",
  utf8 "If: keyword *token, condition expr, thenBranch stmt, elseBranch stmt",
  utf8 "Print: keyword *token, expression expr",
  utf8 "Return: keyword *token, value expr",
  utf8 "Var: name *token, initializer expr",
  utf8 "While: keyword *token, condition expr, body stmt"]

def expressions : List Bytes := [
  utf8 "Assign: name *token, value expr",
  utf8 "Binary: left expr, operator *token, right expr",
  utf8 "Call: callee expr, paren *token, arguments []expr",
  utf8 "Get: object expr, name *token",
  utf8 "Grouping: expression expr",
  utf8 "Literal: value interface\x7b\x7d",
  utf8 "Logical: left expr, operator *token, right expr",
  utf8 "Set: object expr, name *token, value expr",
  utf8 "Super: keyword *token, method *token",
  utf8 "This: keyword *token",
  utf8 "Unary: operator *token, right expr",
  utf8 "Variable: name *token"]

def file (family : Bytes) (types : List Bytes) : Bytes := ((generate? aligned family types).getD []).dropLast

def run (args : List Bytes) : Exit :=
  match args with
  | [family] =>
    if family = utf8 "Stmt" then ⟨some 0, [.out (file family statements)]⟩
    else if family = utf8 "Expr" then ⟨some 0, [.out (file family expressions)]⟩
    else ⟨some CommandLine.usageCode, [.err (utf8 "Unknown node family " ++ Text.quote family ++ utf8 "\n")]⟩
  | _ => ⟨some CommandLine.usageCode, [.err (utf8 "Usage: ast Expr|Stmt\n")]⟩

end Lox.NodeTypes
