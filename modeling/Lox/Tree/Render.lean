/-
  Lox.Tree.Render — a syntax tree as text: one parenthesised line for each declaration.
-/

import Lox.Tree
import Lox.Text.Quoted

namespace Lox

def UnaryOp.symbol : UnaryOp → String
  | .negate => "-"
  | .not => "!"

def BinaryOp.symbol : BinaryOp → String
  | .add => "+"
  | .subtract => "-"
  | .multiply => "*"
  | .divide => "/"
  | .equal => "=="
  | .notEqual => "!="
  | .greater => ">"
  | .greaterEqual => ">="
  | .less => "<"
  | .lessEqual => "<="

def LogicalOp.symbol : LogicalOp → String
  | .and => "and"
  | .or => "or"

def boolText (b : Bool) : Bytes := utf8 (if b then "true" else "false")

def Literal.render : Literal → Bytes
  | .nil => utf8 "nil"
  | .bool b => boolText b
  | .number x => Number.print x
  | .string s => Text.quote s

/-- A head and parts between parentheses, a space before each part. -/
def node (head : String) (parts : List Bytes) : Bytes :=
  utf8 "(" ++ utf8 head ++ parts.flatMap (utf8 " " ++ ·) ++ utf8 ")"

mutual

def Expr.render : Expr → Bytes
  | .literal v => v.render
  | .var n => n.text
  | .assign n v => node "=" [n.text, v.render]
  | .unary op _ e => node op.symbol [e.render]
  | .binary op _ l r => node op.symbol [l.render, r.render]
  | .logical op l r => node op.symbol [l.render, r.render]
  | .call f args _ => node "call" (f.render :: renderExprs args)
  | .get o n => node "." [o.render, n.text]
  | .set o n v => node "=" [o.render, n.text, v.render]
  | .this _ => thisName
  | .super _ m => node "super" [m.text]
  | .group e => node "group" [e.render]

def renderExprs : List Expr → List Bytes
  | [] => []
  | e :: es => e.render :: renderExprs es

end

mutual

def Stmt.render : Stmt → Bytes
  | .expression e => node ";" [e.render]
  | .print e => node "print" [e.render]
  | .var n none => node "var" [n.text]
  | .var n (some e) => node "var" [n.text, utf8 "=", e.render]
  | .block body => node "block" (renderStmts body)
  | .ifElse c t none => node "if" [c.render, t.render]
  | .ifElse c t (some e) => node "if-else" [c.render, t.render, e.render]
  | .loop c b => node "while" [c.render, b.render]
  | .function d => d.render
  | .ret none => node "return" []
  | .ret (some e) => node "return" [e.render]
  | .classDecl n none methods => node "class" (n.text :: renderMethods methods)
  | .classDecl n (some s) methods => node "class" (n.text :: node "<" [s.text] :: renderMethods methods)

def FunctionDecl.render : FunctionDecl → Bytes
  | .mk n params body =>
    node "fun" (n.text :: (utf8 "(" ++ Text.join (utf8 " ") (params.map Name.text) ++ utf8 ")") :: renderStmts body)

def renderStmts : List Stmt → List Bytes
  | [] => []
  | s :: ss => s.render :: renderStmts ss

def renderMethods : List FunctionDecl → List Bytes
  | [] => []
  | d :: ds => d.render :: renderMethods ds

end

def renderProgram (program : List Stmt) : Bytes := Text.unlines (renderStmts program)

end Lox
