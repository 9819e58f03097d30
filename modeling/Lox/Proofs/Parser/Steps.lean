/-
  Lox.Proofs.Parser.Steps — how a parser is put together. `Steps p` is a parser `p` taken
  apart into single steps over the tokens: those that look at the next token, the one that
  takes it, reports, and recovery. A phrase has no other way to get at a token, so what is
  shown of the steps holds of every phrase. They are listed in the order of their
  definitions, up to whole programs (`Steps.program`).
-/

import Lox.Tree.Parser.Statement

namespace Lox.Parser

/-- A parser with the single steps that it is made of. -/
inductive Steps : {α : Type} → Parser α → Type 1
  | pure {α : Type} (a : α) : Steps (pure a)
  | bind {α β : Type} {p : Parser α} {g : α → Parser β} : Steps p → (∀ a, Steps (g a)) → Steps (p >>= g)
  | ite {α : Type} {p q : Parser α} (c : Prop) [Decidable c] : Steps p → Steps q → Steps (if c then p else q)
  | exhausted {α : Type} : Steps (exhausted : Parser α)
  | context : Steps context
  | atEnd : Steps atEnd
  | check (kind : TokenKind) : Steps (check kind)
  | atBodyEnd : Steps atBodyEnd
  | take? {α : Type} (select : Token → Option α) : Steps (take? select)
  /-- What is taken decides how to go on. -/
  | branch {α β : Type} {select : Token → Option α} {g : Option α → Parser β} :
      (∀ t a, select t = some a → Steps (g (some a))) → Steps (g none) → Steps (take? select >>= g)
  | reportAt (t : Token) (fault : SyntaxFault) : Steps (reportAt t fault)
  | reportHere (fault : SyntaxFault) : Steps (reportHere fault)
  | reject {α : Type} (fault : SyntaxFault) : Steps (reject fault : Parser α)
  | bracketed {α : Type} {p : Parser α} (enter leave : Context → Context) :
      Steps p → Steps (bracketed enter leave p)
  | recovering {p : Parser Stmt} : Steps p → Steps (recovering p)

namespace Steps

variable {α β : Type} {p : Parser α} {i : Inner}

/-! ## Compound steps -/

def map {g : α → β} (d : Steps p) : Steps (g <$> p) := d.bind fun a => .pure (g a)

def accept? (kind : TokenKind) : Steps (Parser.accept? kind) := .take? _

def accept (kind : TokenKind) : Steps (Parser.accept kind) := (accept? kind).map

def expect (kind : TokenKind) (fault : SyntaxFault) : Steps (Parser.expect kind fault) :=
  (accept? kind).bind fun
    | some t => .pure t
    | none => .reject fault

def expectName (fault : SyntaxFault) : Steps (Parser.expectName fault) :=
  (expect _ fault).bind fun _ => .pure _

def after? (kind : TokenKind) (d : Steps p) : Steps (Parser.after? kind p) :=
  (accept kind).bind fun _ => .ite _ d.map (.pure none)

def unless? (stop : TokenKind) (d : Steps p) : Steps (Parser.unless? stop p) :=
  (check stop).bind fun _ => .ite _ (.pure none) d.map

def listed {p : Parser (List α)} (d : Steps p) : Steps (Parser.listed p) := (d.unless? _).map

def limit (count : Nat) (fault : SyntaxFault) : Steps (Parser.limit count fault) :=
  .ite _ (.reportHere fault) (.pure ())

def inClass (enclosing : EnclosingClass) (d : Steps p) : Steps (Parser.inClass enclosing p) :=
  context.bind fun _ => d.bracketed _ _

end Steps

structure Inner.Steps (i : Inner) where
  expression : Parser.Steps i.expression
  unary : Parser.Steps i.unary
  statement : Parser.Steps i.statement
  declaration : Parser.Steps i.declaration

namespace Steps

variable {α : Type} {p : Parser α} {i : Inner}

/-! ## Expressions -/

def operands {operand : Parser Expr} (d : Steps operand) (level : Level) :
    (n : Nat) → (left : Expr) → Steps (Parser.operands operand level n left)
  | 0, _ => .exhausted
  | n + 1, left => (take? _).bind fun
    | none => .pure left
    | some combine => d.bind fun right => operands d level n (combine left right)

def binary (bound : Nat) {tightest : Parser Expr} (d : Steps tightest) :
    (levels : List Level) → Steps (Parser.binary bound tightest levels)
  | [] => d
  | level :: tighter => (binary bound d tighter).bind (operands (binary bound d tighter) level bound)

def arguments (d : i.Steps) : (n count : Nat) → Steps (Parser.arguments i n count)
  | 0, _ => .exhausted
  | n + 1, count =>
    (limit count _).bind fun _ => d.expression.bind fun first => (accept _).bind fun _ =>
      .ite _ ((arguments d n (count + 1)).bind fun _ => .pure _) (.pure [first])

def finishCall (d : i.Steps) (callee : Expr) : Steps (Parser.finishCall i callee) :=
  (arguments d _ _).listed.bind fun _ => (expect _ _).bind fun _ => .pure _

def checkThis (t : Token) : Steps (Parser.checkThis t) :=
  context.bind fun
    | ⟨_, .outside⟩ => .reportAt t _
    | ⟨_, .base⟩ => .pure ()
    | ⟨_, .derived⟩ => .pure ()

def checkSuper (t : Token) : Steps (Parser.checkSuper t) :=
  context.bind fun
    | ⟨_, .outside⟩ => .reportAt t _
    | ⟨_, .base⟩ => .reportAt t _
    | ⟨_, .derived⟩ => .pure ()

def thisWord (t : Token) : Steps (Parser.thisWord t) := (checkThis t).bind fun _ => .pure _

def superMethod (t : Token) : Steps (Parser.superMethod t) :=
  (checkSuper t).bind fun _ => (expect _ _).bind fun _ => (expectName _).bind fun _ => .pure _

def group (d : i.Steps) : Steps (Parser.group i) :=
  d.expression.bind fun _ => (expect _ _).bind fun _ => .pure _

abbrev Optional {α : Type} (o : Option (Parser α)) : Type 1 := (p : Parser α) → o = some p → Steps p

def ofSome (d : Steps p) : Optional (some p)
  | _, rfl => d

def ofNone {α : Type} : Optional (none : Option (Parser α)) := nofun

def primaryFrom (d : i.Steps) (t : Token) : Optional (Parser.primaryFrom i t) := by
  obtain ⟨kind, _, _⟩ := t
  cases kind with
  | super_ => exact ofSome (superMethod _)
  | this_ => exact ofSome (thisWord _)
  | leftParen => exact ofSome (group d)
  | false_ | true_ | nil_ | number | string | identifier => exact ofSome (.pure _)
  | _ => exact ofNone

def primary (d : i.Steps) : Steps (Parser.primary i) := .branch (primaryFrom d) (.reject _)

def accesses (d : i.Steps) : (n : Nat) → (e : Expr) → Steps (Parser.accesses i n e)
  | 0, _ => .exhausted
  | n + 1, e => (accept _).bind fun _ =>
    .ite _ ((finishCall d e).bind (accesses d n))
      ((accept _).bind fun _ => .ite _ ((expectName _).bind fun _ => accesses d n _) (.pure e))

def call (d : i.Steps) : Steps (Parser.call i) := (primary d).bind (accesses d i.bound)

def unary (d : i.Steps) : Steps (Parser.unary i) :=
  .branch (fun _ _ _ => d.unary.bind fun _ => .pure _) (call d)

def expression (d : i.Steps) : Steps (Parser.expression i) :=
  (binary i.bound (unary d) levels).bind fun left =>
    .branch (fun _ equal _ => d.expression.bind fun value => match assignTo? value left with
      | some assignment => .pure assignment
      | none => (reportAt equal _).bind fun _ => .pure left) (.pure left)

/-! ## Statements and declarations -/

def declarations (d : i.Steps) : (n : Nat) → Steps (Parser.declarations i n)
  | 0 => .exhausted
  | n + 1 => atBodyEnd.bind fun _ =>
    .ite _ (.pure []) (d.declaration.bind fun _ => (declarations d n).bind fun _ => .pure _)

def block (d : i.Steps) : Steps (Parser.block i) :=
  (declarations d i.bound).bind fun _ => (expect _ _).bind fun _ => .pure _

def parameters : (n count : Nat) → Steps (Parser.parameters n count)
  | 0, _ => .exhausted
  | n + 1, count =>
    (limit count _).bind fun _ => (expectName _).bind fun first => (accept _).bind fun _ =>
      .ite _ ((parameters n (count + 1)).bind fun _ => .pure _) (.pure [first])

def function (d : i.Steps) (kind : FunctionKind) : Steps (Parser.function i kind) :=
  (expectName _).bind fun _ => .bracketed _ _ <|
    (expect _ _).bind fun _ => (parameters i.bound 0).listed.bind fun _ => (expect _ _).bind fun _ =>
      (expect _ _).bind fun _ => (block d).bind fun _ => .pure _

def methods (d : i.Steps) : (n : Nat) → Steps (Parser.methods i n)
  | 0 => .exhausted
  | n + 1 => atBodyEnd.bind fun _ =>
    .ite _ (.pure []) ((function d .method).bind fun _ => (methods d n).bind fun _ => .pure _)

def checkParent (name : Name) (t : Token) : Steps (Parser.checkParent name t) :=
  .ite _ (.reportAt t _) (.pure ())

def parentName (name : Name) : Steps (Parser.parentName name) :=
  (expect _ _).bind fun t => (checkParent name t).bind fun _ => .pure _

def classDecl (d : i.Steps) : Steps (Parser.classDecl i) :=
  (expectName _).bind fun name => ((parentName name).after? _).bind fun _ => .inClass _ <|
    (expect _ _).bind fun _ => (methods d i.bound).bind fun _ => (expect _ _).bind fun _ => .pure _

def varDecl (d : i.Steps) : Steps (Parser.varDecl i) :=
  (expectName _).bind fun _ => ((expression d).after? _).bind fun _ => (expect _ _).bind fun _ => .pure _

def expressionStmt (d : i.Steps) : Steps (Parser.expressionStmt i) :=
  (expression d).bind fun _ => (expect _ _).bind fun _ => .pure _

def forInitializer (d : i.Steps) : Steps (Parser.forInitializer i) :=
  (accept _).bind fun _ => .ite _ (.pure none) <|
    (accept _).bind fun _ => .ite _ (varDecl d).map (expressionStmt d).map

def forStmt (d : i.Steps) : Steps (Parser.forStmt i) :=
  (expect _ _).bind fun _ => (forInitializer d).bind fun _ => ((expression d).unless? _).bind fun _ =>
    (expect _ _).bind fun _ => ((expression d).unless? _).bind fun _ => (expect _ _).bind fun _ =>
      d.statement.bind fun _ => .pure _

def ifStmt (d : i.Steps) : Steps (Parser.ifStmt i) :=
  (expect _ _).bind fun _ => (expression d).bind fun _ => (expect _ _).bind fun _ =>
    d.statement.bind fun _ => (d.statement.after? _).bind fun _ => .pure _

def whileStmt (d : i.Steps) : Steps (Parser.whileStmt i) :=
  (expect _ _).bind fun _ => (expression d).bind fun _ => (expect _ _).bind fun _ =>
    d.statement.bind fun _ => .pure _

def printStmt (d : i.Steps) : Steps (Parser.printStmt i) :=
  (expression d).bind fun _ => (expect _ _).bind fun _ => .pure _

def checkReturn (keyword : Token) : Steps (Parser.checkReturn keyword) :=
  context.bind fun
    | ⟨[], _⟩ => .reportAt keyword _
    | ⟨_ :: _, _⟩ => .pure ()

def returnStmt (d : i.Steps) (keyword : Token) : Steps (Parser.returnStmt i keyword) :=
  (checkReturn keyword).bind fun _ => ((expression d).unless? _).bind fun _ => (expect _ _).bind fun _ => .pure _

def statementFrom (d : i.Steps) (t : Token) : Optional (Parser.statementFrom i t) := by
  obtain ⟨kind, _, _⟩ := t
  cases kind with
  | for_ => exact ofSome (forStmt d)
  | if_ => exact ofSome (ifStmt d)
  | print_ => exact ofSome (printStmt d)
  | return_ => exact ofSome (returnStmt d _)
  | while_ => exact ofSome (whileStmt d)
  | leftBrace => exact ofSome (block d).map
  | _ => exact ofNone

def statement (d : i.Steps) : Steps (Parser.statement i) := .branch (statementFrom d) (expressionStmt d)

def declarationFrom (d : i.Steps) (t : Token) : Optional (Parser.declarationFrom i t) := by
  obtain ⟨kind, _, _⟩ := t
  cases kind with
  | class_ => exact ofSome (classDecl d)
  | fun_ => exact ofSome (function d .plain).map
  | var_ => exact ofSome (varDecl d)
  | _ => exact ofNone

def plainDeclaration (d : i.Steps) : Steps (Parser.plainDeclaration i) := .branch (declarationFrom d) (statement d)

def declaration (d : i.Steps) : Steps (Parser.declaration i) := .recovering (plainDeclaration d)

def inner : (n : Nat) → (Parser.inner n).Steps
  | 0 => ⟨.exhausted, .exhausted, .exhausted, .exhausted⟩
  | n + 1 => ⟨expression (inner n), unary (inner n), statement (inner n), declaration (inner n)⟩

def program (d : i.Steps) : (n : Nat) → Steps (Parser.program i n)
  | 0 => .exhausted
  | n + 1 => atEnd.bind fun _ =>
    .ite _ (.pure []) ((declaration d).bind fun _ => (program d n).bind fun _ => .pure _)

end Steps

end Lox.Parser
