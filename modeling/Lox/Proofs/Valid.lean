/-
  Lox.Proofs.Valid — what is asked of a program beyond its grammar: calls and functions are
  not too long, a return stands in a function, the receiver in a class, the superclass in a
  class that has one, and no class inherits from itself. The innermost class around a point
  counts, and a function makes no difference to it.
-/

import Lox.Tree.Parser.Basic

namespace Lox

mutual

def Expr.Valid (enclosing : EnclosingClass) : Expr → Prop
  | .literal _ => True
  | .var _ => True
  | .assign _ v => v.Valid enclosing
  | .unary _ _ e => e.Valid enclosing
  | .binary _ _ l r => l.Valid enclosing ∧ r.Valid enclosing
  | .logical _ l r => l.Valid enclosing ∧ r.Valid enclosing
  | .call f args _ => f.Valid enclosing ∧ Expr.AllValid enclosing args ∧ args.length ≤ 255
  | .get o _ => o.Valid enclosing
  | .set o _ v => o.Valid enclosing ∧ v.Valid enclosing
  | .this _ => enclosing ≠ .outside
  | .super _ _ => enclosing = .derived
  | .group e => e.Valid enclosing

def Expr.AllValid (enclosing : EnclosingClass) : List Expr → Prop
  | [] => True
  | e :: es => e.Valid enclosing ∧ Expr.AllValid enclosing es

end

def EnclosingClass.ofParent (parent : Option Name) : EnclosingClass := if parent.isSome then .derived else .base

mutual

def Stmt.Valid (inFunction : Bool) (enclosing : EnclosingClass) : Stmt → Prop
  | .expression e => e.Valid enclosing
  | .print e => e.Valid enclosing
  | .var _ init => ∀ e ∈ init, e.Valid enclosing
  | .block body => Stmt.AllValid inFunction enclosing body
  | .ifElse c t none => c.Valid enclosing ∧ t.Valid inFunction enclosing
  | .ifElse c t (some e) => c.Valid enclosing ∧ t.Valid inFunction enclosing ∧ e.Valid inFunction enclosing
  | .loop c b => c.Valid enclosing ∧ b.Valid inFunction enclosing
  | .function d => d.Valid enclosing
  | .ret v => inFunction = true ∧ ∀ e ∈ v, e.Valid enclosing
  | .classDecl n parent methods =>
    (∀ p ∈ parent, p.text ≠ n.text) ∧ FunctionDecl.AllValid (.ofParent parent) methods

def FunctionDecl.Valid (enclosing : EnclosingClass) : FunctionDecl → Prop
  | .mk _ params body => params.length ≤ 255 ∧ Stmt.AllValid true enclosing body

def Stmt.AllValid (inFunction : Bool) (enclosing : EnclosingClass) : List Stmt → Prop
  | [] => True
  | s :: ss => s.Valid inFunction enclosing ∧ Stmt.AllValid inFunction enclosing ss

def FunctionDecl.AllValid (enclosing : EnclosingClass) : List FunctionDecl → Prop
  | [] => True
  | d :: ds => d.Valid enclosing ∧ FunctionDecl.AllValid enclosing ds

end

/-- A whole program stands outside of all functions and classes. -/
def ValidProgram (program : List Stmt) : Prop := Stmt.AllValid false .outside program

theorem FunctionDecl.allValid_iff {enclosing : EnclosingClass} {ds : List FunctionDecl} :
    FunctionDecl.AllValid enclosing ds ↔ ∀ d ∈ ds, d.Valid enclosing := by
  induction ds with
  | nil => simp [FunctionDecl.AllValid]
  | cons d ds ih => simp [FunctionDecl.AllValid, ih]

/-- A counting loop is valid if its parts are. -/
theorem Stmt.valid_counting {inFunction : Bool} {enclosing : EnclosingClass} {init : Option Stmt}
    {cond inc : Option Expr} {body : Stmt} :
    (Stmt.counting init cond inc body).Valid inFunction enclosing ↔
      (∀ s ∈ init, s.Valid inFunction enclosing) ∧ (∀ e ∈ cond, e.Valid enclosing) ∧ (∀ e ∈ inc, e.Valid enclosing) ∧
        body.Valid inFunction enclosing := by
  cases init <;> cases cond <;> cases inc <;>
    simp [Stmt.counting, Stmt.Valid, Stmt.AllValid, Expr.Valid, and_comm]

end Lox
