/-
  Lox.Tree.Parser.Expression — expressions. The binary operators stand in levels, from the
  loosest to the tightest, and associate to the left; assignment is looser than all of them
  and associates to the right; signs are tighter; calls and property accesses are tightest.
-/

import Lox.Tree.Parser.Basic

namespace Lox.Parser

/-- The operators of one level: what a token makes of its line and two operands. -/
abbrev Level := TokenKind → Option (Nat → Expr → Expr → Expr)

def orLevel : Level
  | .or_ => some fun _ => .logical .or
  | _ => none

def andLevel : Level
  | .and_ => some fun _ => .logical .and
  | _ => none

def equalityLevel : Level
  | .equalEqual => some (.binary .equal)
  | .bangEqual => some (.binary .notEqual)
  | _ => none

def comparisonLevel : Level
  | .greater => some (.binary .greater)
  | .greaterEqual => some (.binary .greaterEqual)
  | .less => some (.binary .less)
  | .lessEqual => some (.binary .lessEqual)
  | _ => none

def sumLevel : Level
  | .plus => some (.binary .add)
  | .minus => some (.binary .subtract)
  | _ => none

def productLevel : Level
  | .slash => some (.binary .divide)
  | .star => some (.binary .multiply)
  | _ => none

def levels : List Level := [orLevel, andLevel, equalityLevel, comparisonLevel, sumLevel, productLevel]

/-- What follows `left` on one level: operators and operands in turn. -/
def operands (operand : Parser Expr) (level : Level) : Nat → Expr → Parser Expr
  | 0, _ => exhausted
  | n + 1, left => do
    match ← take? fun t => (level t.kind).map (· t.line) with
    | none => return left
    | some combine =>
      let right ← operand
      operands operand level n (combine left right)

/-- Operands of the tightest kind, joined by the operators of the given levels. -/
def binary (bound : Nat) (tightest : Parser Expr) : List Level → Parser Expr
  | [] => tightest
  | level :: tighter => do
    let left ← binary bound tightest tighter
    operands (binary bound tightest tighter) level bound left

/-- The arguments that follow the first `count`; there is at least one. -/
def arguments (inner : Inner) : Nat → Nat → Parser (List Expr)
  | 0, _ => exhausted
  | n + 1, count => do
    limit count .tooManyArguments
    let first ← inner.expression
    if ← accept .comma then
      return first :: (← arguments inner n (count + 1))
    else
      return [first]

def finishCall (inner : Inner) (callee : Expr) : Parser Expr := do
  let args ← listed (arguments inner inner.bound 0)
  let close ← expect .rightParen .unclosedArguments
  return .call callee args close.line

def checkThis (t : Token) : Parser Unit := do
  match (← context).enclosingClass with
  | .outside => reportAt t .thisOutsideClass
  | _ => return ()

def checkSuper (t : Token) : Parser Unit := do
  match (← context).enclosingClass with
  | .outside => reportAt t .superOutsideClass
  | .base => reportAt t .superWithoutSuperclass
  | .derived => return ()

def thisWord (t : Token) : Parser Expr := do
  checkThis t
  return .this t.line

def superMethod (t : Token) : Parser Expr := do
  checkSuper t
  let _ ← expect .dot .expectedSuperDot
  let method ← expectName .expectedSuperMethod
  return .super t.line method

def group (inner : Inner) : Parser Expr := do
  let e ← inner.expression
  let _ ← expect .rightParen .unclosedGroup
  return .group e

/-- An expression that starts with this token, which has been read. -/
def primaryFrom (inner : Inner) (t : Token) : Option (Parser Expr) :=
  match t.kind with
  | .false_ => some (return .literal (.bool false))
  | .true_ => some (return .literal (.bool true))
  | .nil_ => some (return .literal .nil)
  | .number => some (return .literal (.number (Number.read t.lexeme)))
  | .string => some (return .literal (.string t.content))
  | .super_ => some (superMethod t)
  | .this_ => some (thisWord t)
  | .identifier => some (return .var ⟨t.lexeme, t.line⟩)
  | .leftParen => some (group inner)
  | _ => none

def primary (inner : Inner) : Parser Expr := do
  match ← take? (primaryFrom inner) with
  | some p => p
  | none => reject .expectedExpression

def accesses (inner : Inner) : Nat → Expr → Parser Expr
  | 0, _ => exhausted
  | n + 1, e => do
    if ← accept .leftParen then
      accesses inner n (← finishCall inner e)
    else if ← accept .dot then
      let name ← expectName .expectedPropertyName
      accesses inner n (.get e name)
    else
      return e

def call (inner : Inner) : Parser Expr := do
  let e ← primary inner
  accesses inner inner.bound e

def unaryOp? : TokenKind → Option UnaryOp
  | .bang => some .not
  | .minus => some .negate
  | _ => none

def unary (inner : Inner) : Parser Expr := do
  match ← take? fun t => (unaryOp? t.kind).map (Expr.unary · t.line) with
  | some apply =>
    let operand ← inner.unary
    return apply operand
  | none => call inner

/-- Assignment to what stands on the left, if that can be assigned to. -/
def assignTo? (value : Expr) : Expr → Option Expr
  | .var name => some (.assign name value)
  | .get object name => some (.set object name value)
  | _ => none

def expression (inner : Inner) : Parser Expr := do
  let left ← binary inner.bound (unary inner) levels
  match ← accept? .equal with
  | none => return left
  | some equal =>
    let value ← inner.expression
    match assignTo? value left with
    | some assignment => return assignment
    | none =>
      reportAt equal .invalidAssignmentTarget
      return left

end Lox.Parser
