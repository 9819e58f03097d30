/-
  Lox.Report — what is wrong with a program and where. Faults are causes; their wording
  stands in one place each (`LexicalFault.message`, `SyntaxFault.message`,
  `RuntimeFault.message`).
-/

import Lox.Token

namespace Lox

inductive LexicalFault where
  | unexpectedCharacter
  | unterminatedString
  deriving DecidableEq, Repr

def LexicalFault.message : LexicalFault → String
  | .unexpectedCharacter => "Unexpected character."
  | .unterminatedString => "Unterminated string."

inductive SyntaxFault where
  | expectedExpression
  | unclosedGroup
  | unclosedArguments
  | unclosedParameters
  | unclosedBlock
  | unclosedClassBody
  | expectedClassName
  | expectedSuperclassName
  | expectedClassBody
  | expectedFunctionName
  | expectedMethodName
  | expectedParameterList
  | expectedParameterName
  | expectedFunctionBody
  | expectedVariableName
  | unendedVariable
  | unendedPrint
  | unendedExpression
  | unendedReturn
  | unendedLoopCondition
  | expectedForClauses
  | unclosedForClauses
  | expectedIfCondition
  | unclosedIfCondition
  | expectedWhileCondition
  | unclosedWhileCondition
  | expectedPropertyName
  | expectedSuperDot
  | expectedSuperMethod
  | invalidAssignmentTarget
  | tooManyArguments
  | tooManyParameters
  | returnOutsideFunction
  | thisOutsideClass
  | superOutsideClass
  | superWithoutSuperclass
  | inheritsFromItself
  deriving DecidableEq, Repr

def SyntaxFault.message : SyntaxFault → String
  | .expectedExpression => "Expect expression."
  | .unclosedGroup => "Expect ')' after expression."
  | .unclosedArguments => "Expect ')' after arguments."
  | .unclosedParameters => "Expect ')' after parameters."
  | .unclosedBlock => "Expect '\x7d' after block."
  | .unclosedClassBody => "Expect '\x7d' after class body."
  | .expectedClassName => "Expect class name."
  | .expectedSuperclassName => "Expect superclass name."
  | .expectedClassBody => "Expect '\x7b' before class body."
  | .expectedFunctionName => "Expect function name."
  | .expectedMethodName => "Expect method name."
  | .expectedParameterList => "Expect '(' after function name."
  | .expectedParameterName => "Expect parameter name."
  | .expectedFunctionBody => "Expect '\x7b' before function body."
  | .expectedVariableName => "Expect variable name."
  | .unendedVariable => "Expect ';' after variable declaration."
  | .unendedPrint => "Expect ';' after value."
  | .unendedExpression => "Expect ';' after expression."
  | .unendedReturn => "Expect ';' after return value."
  | .unendedLoopCondition => "Expect ';' after loop condition."
  | .expectedForClauses => "Expect '(' after 'for'."
  | .unclosedForClauses => "Expect ')' after for clauses."
  | .expectedIfCondition => "Expect '(' after 'if'."
  | .unclosedIfCondition => "Expect ')' after if condition."
  | .expectedWhileCondition => "Expect '(' after 'while'."
  | .unclosedWhileCondition => "Expect ')' after condition."
  | .expectedPropertyName => "Expect property name after '.'."
  | .expectedSuperDot => "Expect '.' after 'super'."
  | .expectedSuperMethod => "Expect superclass method name."
  | .invalidAssignmentTarget => "Invalid assignment target."
  | .tooManyArguments => "Can't have more than 255 arguments."
  | .tooManyParameters => "Can't have more than 255 parameters."
  | .returnOutsideFunction => "Can't return from top-level code."
  | .thisOutsideClass => "Can't use 'this' outside of a class."
  | .superOutsideClass => "Can't use 'super' outside of a class."
  | .superWithoutSuperclass => "Can't use 'super' in a class with no superclass."
  | .inheritsFromItself => "A class can't inherit from itself."

inductive RuntimeFault where
  | undefinedVariable (name : Bytes)
  | undefinedProperty (name : Bytes)
  | operandNotNumber
  | operandsNotNumbers
  | operandsNotAddable
  | notCallable
  | wrongArgumentCount (expected got : Nat)
  | propertyOfNonObject
  | fieldOfNonObject
  | superclassNotClass
  | stackOverflow
  deriving DecidableEq, Repr

/-- The fault without the names and numbers of the case at hand. -/
def RuntimeFault.cause : RuntimeFault → String
  | .undefinedVariable _ => "Undefined variable"
  | .undefinedProperty _ => "Undefined property"
  | .operandNotNumber => "Operand must be a number."
  | .operandsNotNumbers => "Operands must be numbers."
  | .operandsNotAddable => "Operands must be two numbers or two strings."
  | .notCallable => "Can only call functions and classes."
  | .wrongArgumentCount _ _ => "Invalid number of arguments"
  | .propertyOfNonObject => "Only instances have properties."
  | .fieldOfNonObject => "Only instances have fields."
  | .superclassNotClass => "Superclass must be a class."
  | .stackOverflow => "Stack overflow."

def RuntimeFault.message (fault : RuntimeFault) : Bytes :=
  match fault with
  | .undefinedVariable name => utf8 fault.cause ++ utf8 " '" ++ name ++ utf8 "'."
  | .undefinedProperty name => utf8 fault.cause ++ utf8 " '" ++ name ++ utf8 "'."
  | .wrongArgumentCount expected got =>
    utf8 "Expected " ++ Text.decimal expected ++ utf8 " arguments but got " ++ Text.decimal got ++ utf8 "."
  | fault => utf8 fault.cause

structure RuntimeError where
  line : Nat
  fault : RuntimeFault
  deriving DecidableEq, Repr

def RuntimeFault.textAt (fault : RuntimeFault) (line : Int) : Bytes :=
  fault.message ++ utf8 "\n[line " ++ Text.decimalInt line ++ utf8 "]"

def RuntimeError.text (e : RuntimeError) : Bytes := e.fault.textAt e.line

inductive Fault where
  | lexical (fault : LexicalFault)
  | syntactic (fault : SyntaxFault)
  | runtime (fault : RuntimeFault)
  deriving DecidableEq, Repr

def Fault.message : Fault → Bytes
  | .lexical f => utf8 f.message
  | .syntactic f => utf8 f.message
  | .runtime f => f.message

/-- Where on its line a fault lies. Only syntax faults are placed. -/
inductive Place where
  | unplaced
  | atEnd
  | atLexeme (lexeme : Bytes)
  deriving DecidableEq, Repr

def Place.text : Place → Bytes
  | .unplaced => []
  | .atEnd => utf8 " at end"
  | .atLexeme lexeme => utf8 " at '" ++ lexeme ++ utf8 "'"

structure Report where
  line : Nat
  place : Place
  fault : Fault
  deriving DecidableEq, Repr

def RuntimeError.report (e : RuntimeError) : Report := ⟨e.line, .unplaced, .runtime e.fault⟩

end Lox
