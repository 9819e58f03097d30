/-
  Lox.Tree.Parser.Statement — statements and declarations.
-/

import Lox.Tree.Parser.Expression

namespace Lox

namespace Parser

def declarations (inner : Inner) : Nat → Parser (List Stmt)
  | 0 => exhausted
  | n + 1 => do
    if ← atBodyEnd then
      return []
    else
      let first ← inner.declaration
      return first.toList ++ (← declarations inner n)

def block (inner : Inner) : Parser (List Stmt) := do
  let body ← declarations inner inner.bound
  let _ ← expect .rightBrace .unclosedBlock
  return body

/-- The parameters that follow the first `count`; there is at least one. -/
def parameters : Nat → Nat → Parser (List Name)
  | 0, _ => exhausted
  | n + 1, count => do
    limit count .tooManyParameters
    let first ← expectName .expectedParameterName
    if ← accept .comma then
      return first :: (← parameters n (count + 1))
    else
      return [first]

def function (inner : Inner) (kind : FunctionKind) : Parser FunctionDecl := do
  let name ← expectName kind.missingName
  inFunction (kind.named name.text) do
    let _ ← expect .leftParen .expectedParameterList
    let params ← listed (parameters inner.bound 0)
    let _ ← expect .rightParen .unclosedParameters
    let _ ← expect .leftBrace .expectedFunctionBody
    let body ← block inner
    return .mk name params body

def methods (inner : Inner) : Nat → Parser (List FunctionDecl)
  | 0 => exhausted
  | n + 1 => do
    if ← atBodyEnd then
      return []
    else
      let first ← function inner .method
      return first :: (← methods inner n)

def checkParent (name : Name) (t : Token) : Parser Unit :=
  if t.lexeme = name.text then reportAt t .inheritsFromItself else return ()

def parentName (name : Name) : Parser Name := do
  let t ← expect .identifier .expectedSuperclassName
  checkParent name t
  return ⟨t.lexeme, t.line⟩

def classDecl (inner : Inner) : Parser Stmt := do
  let name ← expectName .expectedClassName
  let parent ← after? .less (parentName name)
  inClass (if parent.isSome then .derived else .base) do
    let _ ← expect .leftBrace .expectedClassBody
    let members ← methods inner inner.bound
    let _ ← expect .rightBrace .unclosedClassBody
    return .classDecl name parent members

/-- A variable declaration from its name on. -/
def varDecl (inner : Inner) : Parser Stmt := do
  let name ← expectName .expectedVariableName
  let initializer ← after? .equal (expression inner)
  let _ ← expect .semicolon .unendedVariable
  return .var name initializer

def expressionStmt (inner : Inner) : Parser Stmt := do
  let e ← expression inner
  let _ ← expect .semicolon .unendedExpression
  return .expression e

def forInitializer (inner : Inner) : Parser (Option Stmt) := do
  if ← accept .semicolon then
    return none
  else if ← accept .var_ then
    some <$> varDecl inner
  else
    some <$> expressionStmt inner

def forStmt (inner : Inner) : Parser Stmt := do
  let _ ← expect .leftParen .expectedForClauses
  let initializer ← forInitializer inner
  let condition ← unless? .semicolon (expression inner)
  let _ ← expect .semicolon .unendedLoopCondition
  let increment ← unless? .rightParen (expression inner)
  let _ ← expect .rightParen .unclosedForClauses
  let body ← inner.statement
  return .counting initializer condition increment body

def ifStmt (inner : Inner) : Parser Stmt := do
  let _ ← expect .leftParen .expectedIfCondition
  let condition ← expression inner
  let _ ← expect .rightParen .unclosedIfCondition
  let thenBranch ← inner.statement
  let elseBranch ← after? .else_ inner.statement
  return .ifElse condition thenBranch elseBranch

def whileStmt (inner : Inner) : Parser Stmt := do
  let _ ← expect .leftParen .expectedWhileCondition
  let condition ← expression inner
  let _ ← expect .rightParen .unclosedWhileCondition
  let body ← inner.statement
  return .loop condition body

def printStmt (inner : Inner) : Parser Stmt := do
  let e ← expression inner
  let _ ← expect .semicolon .unendedPrint
  return .print e

def checkReturn (keyword : Token) : Parser Unit := do
  match (← context).functions with
  | [] => reportAt keyword .returnOutsideFunction
  | _ :: _ => return ()

def returnStmt (inner : Inner) (keyword : Token) : Parser Stmt := do
  checkReturn keyword
  let value ← unless? .semicolon (expression inner)
  let _ ← expect .semicolon .unendedReturn
  return .ret value

def statementFrom (inner : Inner) (t : Token) : Option (Parser Stmt) :=
  match t.kind with
  | .for_ => some (forStmt inner)
  | .if_ => some (ifStmt inner)
  | .print_ => some (printStmt inner)
  | .return_ => some (returnStmt inner t)
  | .while_ => some (whileStmt inner)
  | .leftBrace => some (.block <$> block inner)
  | _ => none

def statement (inner : Inner) : Parser Stmt := do
  match ← take? (statementFrom inner) with
  | some p => p
  | none => expressionStmt inner

def declarationFrom (inner : Inner) (t : Token) : Option (Parser Stmt) :=
  match t.kind with
  | .class_ => some (classDecl inner)
  | .fun_ => some (.function <$> function inner .plain)
  | .var_ => some (varDecl inner)
  | _ => none

def plainDeclaration (inner : Inner) : Parser Stmt := do
  match ← take? (declarationFrom inner) with
  | some p => p
  | none => statement inner

/-- A declaration; none if it was rejected and skipped. -/
def declaration (inner : Inner) : Parser (Option Stmt) := recovering (plainDeclaration inner)

/-- The parsers for phrases nested at most `n` deep that meet fewer than `n` tokens. -/
def inner : Nat → Inner
  | 0 => ⟨0, exhausted, exhausted, exhausted, exhausted⟩
  | n + 1 => {
      bound := n + 1
      expression := fun s => expression (inner n) s
      unary := fun s => unary (inner n) s
      statement := fun s => statement (inner n) s
      declaration := fun s => declaration (inner n) s }

def program (phrases : Inner) : Nat → Parser (List Stmt)
  | 0 => exhausted
  | n + 1 => do
    if ← atEnd then
      return []
    else
      let first ← declaration phrases
      return first.toList ++ (← program phrases n)

end Parser

structure Parsed where
  statements : List Stmt
  reports : List Report
  errors : Nat

/-- Parses the tokens of a text that ends on `endLine`, when so many errors have been counted. -/
def parse (tokens : List Token) (endLine : Nat) (errors : Nat := 0) : Parsed :=
  let bound := tokens.length + 1
  match Parser.program (Parser.inner bound) bound { rest := tokens, endLine, errors } with
  | .read statements s reports => ⟨statements, reports, s.errors⟩
  | .rejected s earlier reason => ⟨[], earlier ++ [reason], s.errors⟩
  | .exhausted => ⟨[], [], errors⟩

end Lox
