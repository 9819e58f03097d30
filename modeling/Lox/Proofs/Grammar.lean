/-
  Lox.Proofs.Grammar — the grammar of the language, with the tree that each derivation
  stands for. `Expression ts e rest` says: what stands at the front of the tokens `ts`, up
  to `rest`, derives from the rule for expressions with the tree `e`; the other relations
  are read alike. A repetition folds its items into the tree from the left.

  An `else` can be given to more than one `if`. Statements carry a mark for this: one that
  is open ends in an `if` without `else`. With `nearest` set, no open statement stands
  between an `if` and its `else`, so each `else` goes to the nearest `if`; otherwise it may
  go to any.
-/

import Lox.Tree

namespace Lox.Grammar

/-! ## Parts of rules -/

inductive Optional {α : Type} (Phrase : List Token → α → List Token → Prop) :
    List Token → Option α → List Token → Prop
  | none {rest : List Token} : Optional Phrase rest none rest
  | some {ts rest : List Token} {a : α} : Phrase ts a rest → Optional Phrase ts (some a) rest

inductive After {α : Type} (kind : TokenKind) (Phrase : List Token → α → List Token → Prop) :
    List Token → α → List Token → Prop
  | mk {t : Token} {ts rest : List Token} {a : α} : t.kind = kind → Phrase ts a rest → After kind Phrase (t :: ts) a rest

def nameOf (t : Token) : Name := ⟨t.lexeme, t.line⟩

inductive Identifier : List Token → Name → List Token → Prop
  | mk {t : Token} {rest : List Token} : t.kind = .identifier → Identifier (t :: rest) (nameOf t) rest

/-! ## Expressions -/

inductive Precedence where
  | or
  | and
  | equality
  | comparison
  | term
  | factor
  deriving DecidableEq

def precedences : List Precedence := [.or, .and, .equality, .comparison, .term, .factor]

/-- The operators, each with what it makes of its line and its operands. -/
inductive Operator : Precedence → TokenKind → (Nat → Expr → Expr → Expr) → Prop
  | or : Operator .or .or_ fun _ => .logical .or
  | and : Operator .and .and_ fun _ => .logical .and
  | notEqual : Operator .equality .bangEqual (.binary .notEqual)
  | equal : Operator .equality .equalEqual (.binary .equal)
  | greater : Operator .comparison .greater (.binary .greater)
  | greaterEqual : Operator .comparison .greaterEqual (.binary .greaterEqual)
  | less : Operator .comparison .less (.binary .less)
  | lessEqual : Operator .comparison .lessEqual (.binary .lessEqual)
  | subtract : Operator .term .minus (.binary .subtract)
  | add : Operator .term .plus (.binary .add)
  | divide : Operator .factor .slash (.binary .divide)
  | multiply : Operator .factor .star (.binary .multiply)

mutual

inductive Expression : List Token → Expr → List Token → Prop
  | assign {name equal : Token} {ts rest : List Token} {value : Expr} :
      name.kind = .identifier → equal.kind = .equal → Expression ts value rest →
      Expression (name :: equal :: ts) (.assign (nameOf name) value) rest
  | set {dot name equal : Token} {ts ts' rest : List Token} {object value : Expr} :
      Call ts object (dot :: name :: equal :: ts') → dot.kind = .dot → name.kind = .identifier → equal.kind = .equal →
      Expression ts' value rest → Expression ts (.set object (nameOf name) value) rest
  | operation {ts rest : List Token} {e : Expr} : Operation precedences ts e rest → Expression ts e rest

/-- Operands joined by the operators of the given levels, the loosest first. -/
inductive Operation : List Precedence → List Token → Expr → List Token → Prop
  | unary {ts rest : List Token} {e : Expr} : Unary ts e rest → Operation [] ts e rest
  | level {p : Precedence} {tighter : List Precedence} {ts ts' rest : List Token} {left e : Expr} :
      Operation tighter ts left ts' → Operands p tighter left ts' e rest → Operation (p :: tighter) ts e rest

/-- Operators of one level and operands, in turn, after a first operand. -/
inductive Operands : Precedence → List Precedence → Expr → List Token → Expr → List Token → Prop
  | done {p : Precedence} {tighter : List Precedence} {left : Expr} {rest : List Token} :
      Operands p tighter left rest left rest
  | more {p : Precedence} {tighter : List Precedence} {left right e : Expr} {t : Token} {ts ts' rest : List Token}
      {combine : Nat → Expr → Expr → Expr} :
      Operator p t.kind combine → Operation tighter ts right ts' →
      Operands p tighter (combine t.line left right) ts' e rest → Operands p tighter left (t :: ts) e rest

inductive Unary : List Token → Expr → List Token → Prop
  | not {t : Token} {ts rest : List Token} {e : Expr} :
      t.kind = .bang → Unary ts e rest → Unary (t :: ts) (.unary .not t.line e) rest
  | negate {t : Token} {ts rest : List Token} {e : Expr} :
      t.kind = .minus → Unary ts e rest → Unary (t :: ts) (.unary .negate t.line e) rest
  | call {ts rest : List Token} {e : Expr} : Call ts e rest → Unary ts e rest

inductive Call : List Token → Expr → List Token → Prop
  | mk {ts ts' rest : List Token} {first e : Expr} : Primary ts first ts' → Accesses first ts' e rest → Call ts e rest

inductive Accesses : Expr → List Token → Expr → List Token → Prop
  | done {e : Expr} {rest : List Token} : Accesses e rest e rest
  | call {callee e : Expr} {opening closing : Token} {ts rest : List Token} :
      opening.kind = .leftParen → closing.kind = .rightParen → Accesses (.call callee [] closing.line) ts e rest →
      Accesses callee (opening :: closing :: ts) e rest
  | callWith {callee e : Expr} {arguments : List Expr} {opening closing : Token} {ts ts' rest : List Token} :
      opening.kind = .leftParen → Arguments ts arguments (closing :: ts') → closing.kind = .rightParen →
      Accesses (.call callee arguments closing.line) ts' e rest → Accesses callee (opening :: ts) e rest
  | get {object e : Expr} {dot name : Token} {ts rest : List Token} :
      dot.kind = .dot → name.kind = .identifier → Accesses (.get object (nameOf name)) ts e rest →
      Accesses object (dot :: name :: ts) e rest

inductive Arguments : List Token → List Expr → List Token → Prop
  | one {ts rest : List Token} {e : Expr} : Expression ts e rest → Arguments ts [e] rest
  | more {comma : Token} {ts ts' rest : List Token} {e : Expr} {es : List Expr} :
      Expression ts e (comma :: ts') → comma.kind = .comma → Arguments ts' es rest → Arguments ts (e :: es) rest

inductive Primary : List Token → Expr → List Token → Prop
  | number {t : Token} {rest : List Token} :
      t.kind = .number → Primary (t :: rest) (.literal (.number (Number.read t.lexeme))) rest
  | string {t : Token} {rest : List Token} :
      t.kind = .string → Primary (t :: rest) (.literal (.string t.content)) rest
  | var {t : Token} {rest : List Token} : t.kind = .identifier → Primary (t :: rest) (.var (nameOf t)) rest
  | true {t : Token} {rest : List Token} : t.kind = .true_ → Primary (t :: rest) (.literal (.bool true)) rest
  | false {t : Token} {rest : List Token} : t.kind = .false_ → Primary (t :: rest) (.literal (.bool false)) rest
  | nil {t : Token} {rest : List Token} : t.kind = .nil_ → Primary (t :: rest) (.literal .nil) rest
  | this {t : Token} {rest : List Token} : t.kind = .this_ → Primary (t :: rest) (.this t.line) rest
  | super {t dot method : Token} {rest : List Token} :
      t.kind = .super_ → dot.kind = .dot → method.kind = .identifier →
      Primary (t :: dot :: method :: rest) (.super t.line (nameOf method)) rest
  | group {opening closing : Token} {ts rest : List Token} {e : Expr} :
      opening.kind = .leftParen → Expression ts e (closing :: rest) → closing.kind = .rightParen →
      Primary (opening :: ts) (.group e) rest

end

/-! ## Statements and declarations -/

inductive VarDecl : List Token → Stmt → List Token → Prop
  | mk {keyword name semicolon : Token} {ts rest : List Token} {init : Option Expr} :
      keyword.kind = .var_ → name.kind = .identifier → Optional (After .equal Expression) ts init (semicolon :: rest) →
      semicolon.kind = .semicolon → VarDecl (keyword :: name :: ts) (.var (nameOf name) init) rest

inductive ExpressionStmt : List Token → Stmt → List Token → Prop
  | mk {semicolon : Token} {ts rest : List Token} {e : Expr} :
      Expression ts e (semicolon :: rest) → semicolon.kind = .semicolon → ExpressionStmt ts (.expression e) rest

inductive ForInitializer : List Token → Option Stmt → List Token → Prop
  | var {ts rest : List Token} {s : Stmt} : VarDecl ts s rest → ForInitializer ts (some s) rest
  | expression {ts rest : List Token} {s : Stmt} : ExpressionStmt ts s rest → ForInitializer ts (some s) rest
  | none {semicolon : Token} {rest : List Token} :
      semicolon.kind = .semicolon → ForInitializer (semicolon :: rest) none rest

inductive Parameters : List Token → List Name → List Token → Prop
  | one {t : Token} {rest : List Token} : t.kind = .identifier → Parameters (t :: rest) [nameOf t] rest
  | more {t comma : Token} {ts rest : List Token} {names : List Name} :
      t.kind = .identifier → comma.kind = .comma → Parameters ts names rest →
      Parameters (t :: comma :: ts) (nameOf t :: names) rest

mutual

/-- The first mark is the rule for `else`, the second says whether the statement is open. -/
inductive Statement (nearest : Bool) : Bool → List Token → Stmt → List Token → Prop
  | expression {ts rest : List Token} {s : Stmt} : ExpressionStmt ts s rest → Statement nearest false ts s rest
  | forLoop {isOpen : Bool} {keyword opening semicolon closing : Token} {ts ts₁ ts₂ ts₃ rest : List Token}
      {init : Option Stmt} {cond inc : Option Expr} {body : Stmt} :
      keyword.kind = .for_ → opening.kind = .leftParen → ForInitializer ts init ts₁ →
      Optional Expression ts₁ cond (semicolon :: ts₂) → semicolon.kind = .semicolon →
      Optional Expression ts₂ inc (closing :: ts₃) → closing.kind = .rightParen → Statement nearest isOpen ts₃ body rest →
      Statement nearest isOpen (keyword :: opening :: ts) (.counting init cond inc body) rest
  | ifOnly {isOpen : Bool} {keyword opening closing : Token} {ts ts₁ rest : List Token} {cond : Expr} {body : Stmt} :
      keyword.kind = .if_ → opening.kind = .leftParen → Expression ts cond (closing :: ts₁) →
      closing.kind = .rightParen → Statement nearest isOpen ts₁ body rest →
      Statement nearest true (keyword :: opening :: ts) (.ifElse cond body none) rest
  | ifElse {thenOpen isOpen : Bool} {keyword opening closing keyword' : Token} {ts ts₁ ts₂ rest : List Token}
      {cond : Expr} {thenBranch elseBranch : Stmt} :
      keyword.kind = .if_ → opening.kind = .leftParen → Expression ts cond (closing :: ts₁) →
      closing.kind = .rightParen → Statement nearest thenOpen ts₁ thenBranch (keyword' :: ts₂) →
      (nearest = true → thenOpen = false) → keyword'.kind = .else_ → Statement nearest isOpen ts₂ elseBranch rest →
      Statement nearest isOpen (keyword :: opening :: ts) (.ifElse cond thenBranch (some elseBranch)) rest
  | print {keyword semicolon : Token} {ts rest : List Token} {e : Expr} :
      keyword.kind = .print_ → Expression ts e (semicolon :: rest) → semicolon.kind = .semicolon →
      Statement nearest false (keyword :: ts) (.print e) rest
  | ret {keyword semicolon : Token} {ts rest : List Token} {value : Option Expr} :
      keyword.kind = .return_ → Optional Expression ts value (semicolon :: rest) → semicolon.kind = .semicolon →
      Statement nearest false (keyword :: ts) (.ret value) rest
  | whileLoop {isOpen : Bool} {keyword opening closing : Token} {ts ts₁ rest : List Token} {cond : Expr} {body : Stmt} :
      keyword.kind = .while_ → opening.kind = .leftParen → Expression ts cond (closing :: ts₁) →
      closing.kind = .rightParen → Statement nearest isOpen ts₁ body rest →
      Statement nearest isOpen (keyword :: opening :: ts) (.loop cond body) rest
  | block {opening closing : Token} {ts rest : List Token} {body : List Stmt} :
      opening.kind = .leftBrace → Declarations nearest ts body (closing :: rest) → closing.kind = .rightBrace →
      Statement nearest false (opening :: ts) (.block body) rest

inductive Declaration (nearest : Bool) : Bool → List Token → Stmt → List Token → Prop
  | classDecl {keyword name opening closing : Token} {ts ts₁ rest : List Token} {parent : Option Name}
      {methods : List FunctionDecl} :
      keyword.kind = .class_ → name.kind = .identifier → Optional (After .less Identifier) ts parent (opening :: ts₁) →
      opening.kind = .leftBrace → Methods nearest ts₁ methods (closing :: rest) → closing.kind = .rightBrace →
      Declaration nearest false (keyword :: name :: ts) (.classDecl (nameOf name) parent methods) rest
  | function {keyword : Token} {ts rest : List Token} {d : FunctionDecl} :
      keyword.kind = .fun_ → Function nearest ts d rest → Declaration nearest false (keyword :: ts) (.function d) rest
  | var {ts rest : List Token} {s : Stmt} : VarDecl ts s rest → Declaration nearest false ts s rest
  | statement {isOpen : Bool} {ts rest : List Token} {s : Stmt} :
      Statement nearest isOpen ts s rest → Declaration nearest isOpen ts s rest

inductive Declarations (nearest : Bool) : List Token → List Stmt → List Token → Prop
  | nil {rest : List Token} : Declarations nearest rest [] rest
  | cons {isOpen : Bool} {ts ts' rest : List Token} {s : Stmt} {ss : List Stmt} :
      Declaration nearest isOpen ts s ts' → Declarations nearest ts' ss rest → Declarations nearest ts (s :: ss) rest

inductive Function (nearest : Bool) : List Token → FunctionDecl → List Token → Prop
  | mk {name opening closing brace brace' : Token} {ts ts₁ rest : List Token} {params : Option (List Name)}
      {body : List Stmt} :
      name.kind = .identifier → opening.kind = .leftParen → Optional Parameters ts params (closing :: brace :: ts₁) →
      closing.kind = .rightParen → brace.kind = .leftBrace → Declarations nearest ts₁ body (brace' :: rest) →
      brace'.kind = .rightBrace →
      Function nearest (name :: opening :: ts) (.mk (nameOf name) (params.getD []) body) rest

inductive Methods (nearest : Bool) : List Token → List FunctionDecl → List Token → Prop
  | nil {rest : List Token} : Methods nearest rest [] rest
  | cons {ts ts' rest : List Token} {d : FunctionDecl} {ds : List FunctionDecl} :
      Function nearest ts d ts' → Methods nearest ts' ds rest → Methods nearest ts (d :: ds) rest

end

/-- Declarations up to the end. -/
def Program (nearest : Bool) (tokens : List Token) (program : List Stmt) : Prop :=
  Declarations nearest tokens program []

end Lox.Grammar
