/-
  Lox.Proofs.Renumber — tokens, trees and reports with other line numbers. `renumber f`
  puts `f line` in the place of every line and leaves all else as it is, so two phrases
  that differ only in their lines have the same image under a constant `f`.
-/

import Lox.Report
import Lox.Tree

namespace Lox

abbrev erased : Nat → Nat := fun _ => 0

def Token.renumber (f : Nat → Nat) (t : Token) : Token := { t with line := f t.line }

def Name.renumber (f : Nat → Nat) (n : Name) : Name := { n with line := f n.line }

def Report.renumber (f : Nat → Nat) (r : Report) : Report := { r with line := f r.line }

mutual

def Expr.renumber (f : Nat → Nat) : Expr → Expr
  | .literal v => .literal v
  | .var n => .var (n.renumber f)
  | .assign n v => .assign (n.renumber f) (v.renumber f)
  | .unary op line e => .unary op (f line) (e.renumber f)
  | .binary op line l r => .binary op (f line) (l.renumber f) (r.renumber f)
  | .logical op l r => .logical op (l.renumber f) (r.renumber f)
  | .call c args line => .call (c.renumber f) (Expr.renumberAll f args) (f line)
  | .get o n => .get (o.renumber f) (n.renumber f)
  | .set o n v => .set (o.renumber f) (n.renumber f) (v.renumber f)
  | .this line => .this (f line)
  | .super line m => .super (f line) (m.renumber f)
  | .group e => .group (e.renumber f)

def Expr.renumberAll (f : Nat → Nat) : List Expr → List Expr
  | [] => []
  | e :: es => e.renumber f :: Expr.renumberAll f es

end

mutual

def Stmt.renumber (f : Nat → Nat) : Stmt → Stmt
  | .expression e => .expression (e.renumber f)
  | .print e => .print (e.renumber f)
  | .var n init => .var (n.renumber f) (init.map (Expr.renumber f))
  | .block body => .block (Stmt.renumberAll f body)
  | .ifElse c t none => .ifElse (c.renumber f) (t.renumber f) none
  | .ifElse c t (some e) => .ifElse (c.renumber f) (t.renumber f) (some (e.renumber f))
  | .loop c b => .loop (c.renumber f) (b.renumber f)
  | .function d => .function (d.renumber f)
  | .ret v => .ret (v.map (Expr.renumber f))
  | .classDecl n parent methods =>
    .classDecl (n.renumber f) (parent.map (Name.renumber f)) (FunctionDecl.renumberAll f methods)

def FunctionDecl.renumber (f : Nat → Nat) : FunctionDecl → FunctionDecl
  | .mk n params body => .mk (n.renumber f) (params.map (Name.renumber f)) (Stmt.renumberAll f body)

def Stmt.renumberAll (f : Nat → Nat) : List Stmt → List Stmt
  | [] => []
  | s :: ss => s.renumber f :: Stmt.renumberAll f ss

def FunctionDecl.renumberAll (f : Nat → Nat) : List FunctionDecl → List FunctionDecl
  | [] => []
  | d :: ds => d.renumber f :: FunctionDecl.renumberAll f ds

end

variable (f : Nat → Nat)

@[simp] theorem Token.renumber_kind (t : Token) : (t.renumber f).kind = t.kind := rfl
@[simp] theorem Token.renumber_lexeme (t : Token) : (t.renumber f).lexeme = t.lexeme := rfl
@[simp] theorem Token.renumber_line (t : Token) : (t.renumber f).line = f t.line := rfl
@[simp] theorem Token.renumber_content (t : Token) : (t.renumber f).content = t.content := rfl
@[simp] theorem Name.renumber_text (n : Name) : (n.renumber f).text = n.text := rfl
@[simp] theorem Name.renumber_line (n : Name) : (n.renumber f).line = f n.line := rfl

@[simp] theorem Expr.renumberAll_eq (es : List Expr) : Expr.renumberAll f es = es.map (Expr.renumber f) := by
  induction es with
  | nil => rfl
  | cons e es ih => simp [Expr.renumberAll, ih]

@[simp] theorem Stmt.renumberAll_eq (ss : List Stmt) : Stmt.renumberAll f ss = ss.map (Stmt.renumber f) := by
  induction ss with
  | nil => rfl
  | cons s ss ih => simp [Stmt.renumberAll, ih]

@[simp] theorem FunctionDecl.renumberAll_eq (ds : List FunctionDecl) :
    FunctionDecl.renumberAll f ds = ds.map (FunctionDecl.renumber f) := by
  induction ds with
  | nil => rfl
  | cons d ds ih => simp [FunctionDecl.renumberAll, ih]

theorem Stmt.renumber_ifElse (c : Expr) (t : Stmt) (e : Option Stmt) :
    (Stmt.ifElse c t e).renumber f = .ifElse (c.renumber f) (t.renumber f) (e.map (Stmt.renumber f)) := by
  cases e <;> simp [Stmt.renumber]

/-- A counting loop is taken apart in the same way whatever its line numbers are. -/
theorem Stmt.renumber_counting (init : Option Stmt) (cond inc : Option Expr) (body : Stmt) :
    (Stmt.counting init cond inc body).renumber f =
      .counting (init.map (Stmt.renumber f)) (cond.map (Expr.renumber f)) (inc.map (Expr.renumber f))
        (body.renumber f) := by
  cases init <;> cases cond <;> cases inc <;> simp [Stmt.counting, Stmt.renumber, Expr.renumber]

/-! ## The numbers as they are -/

mutual

@[simp] theorem Expr.renumber_id : ∀ e : Expr, e.renumber id = e
  | .literal _ | .var _ | .this _ | .super _ _ => rfl
  | .assign _ v => by simp [Expr.renumber, Name.renumber, Expr.renumber_id v]
  | .unary _ _ e => by simp [Expr.renumber, Expr.renumber_id e]
  | .binary _ _ l r => by simp [Expr.renumber, Expr.renumber_id l, Expr.renumber_id r]
  | .logical _ l r => by simp [Expr.renumber, Expr.renumber_id l, Expr.renumber_id r]
  | .call c args _ => by simp only [Expr.renumber, Expr.renumber_id c, Expr.renumberAll_id args, id]
  | .get o _ => by simp [Expr.renumber, Name.renumber, Expr.renumber_id o]
  | .set o _ v => by simp [Expr.renumber, Name.renumber, Expr.renumber_id o, Expr.renumber_id v]
  | .group e => by simp [Expr.renumber, Expr.renumber_id e]

theorem Expr.renumberAll_id : ∀ es : List Expr, Expr.renumberAll id es = es
  | [] => rfl
  | e :: es => by simp only [Expr.renumberAll, Expr.renumber_id e, Expr.renumberAll_id es]

end

theorem Name.renumber_id : Name.renumber id = id := rfl

theorem Expr.renumber_eq_id : Expr.renumber id = id := funext Expr.renumber_id

mutual

@[simp] theorem Stmt.renumber_id : ∀ s : Stmt, s.renumber id = s
  | .expression _ | .print _ | .var _ _ | .ret _ => by simp [Stmt.renumber, Name.renumber, Expr.renumber_eq_id]
  | .block body => by simp only [Stmt.renumber, Stmt.renumberAll_id body]
  | .ifElse _ t none => by simp [Stmt.renumber, Stmt.renumber_id t]
  | .ifElse _ t (some e) => by simp [Stmt.renumber, Stmt.renumber_id t, Stmt.renumber_id e]
  | .loop _ b => by simp [Stmt.renumber, Stmt.renumber_id b]
  | .function d => by simp only [Stmt.renumber, FunctionDecl.renumber_id d]
  | .classDecl _ _ methods => by
    simp [Stmt.renumber, Name.renumber_id, FunctionDecl.renumberAll_id methods, - FunctionDecl.renumberAll_eq]

theorem FunctionDecl.renumber_id : ∀ d : FunctionDecl, d.renumber id = d
  | .mk _ _ body => by
    simp [FunctionDecl.renumber, Name.renumber_id, Stmt.renumberAll_id body, - Stmt.renumberAll_eq]

theorem Stmt.renumberAll_id : ∀ ss : List Stmt, Stmt.renumberAll id ss = ss
  | [] => rfl
  | s :: ss => by simp only [Stmt.renumberAll, Stmt.renumber_id s, Stmt.renumberAll_id ss]

theorem FunctionDecl.renumberAll_id : ∀ ds : List FunctionDecl, FunctionDecl.renumberAll id ds = ds
  | [] => rfl
  | d :: ds => by simp only [FunctionDecl.renumberAll, FunctionDecl.renumber_id d, FunctionDecl.renumberAll_id ds]

end

/-! ## Other numbers twice -/

section

variable (g : Nat → Nat)

theorem Name.renumber_renumber (n : Name) : (n.renumber f).renumber g = n.renumber (g ∘ f) := rfl

mutual

theorem Expr.renumber_renumber : ∀ e : Expr, (e.renumber f).renumber g = e.renumber (g ∘ f)
  | .literal _ | .var _ | .this _ | .super _ _ => rfl
  | .assign _ v => by simp only [Expr.renumber, Name.renumber_renumber, v.renumber_renumber]
  | .unary _ _ e => by simp only [Expr.renumber, e.renumber_renumber, Function.comp_apply]
  | .binary _ _ l r => by simp only [Expr.renumber, l.renumber_renumber, r.renumber_renumber, Function.comp_apply]
  | .logical _ l r => by simp only [Expr.renumber, l.renumber_renumber, r.renumber_renumber]
  | .call c args _ => by
    simp only [Expr.renumber, c.renumber_renumber, Expr.renumberAll_renumberAll args, Function.comp_apply]
  | .get o _ => by simp only [Expr.renumber, Name.renumber_renumber, o.renumber_renumber]
  | .set o _ v => by simp only [Expr.renumber, Name.renumber_renumber, o.renumber_renumber, v.renumber_renumber]
  | .group e => by simp only [Expr.renumber, e.renumber_renumber]

theorem Expr.renumberAll_renumberAll :
    ∀ es : List Expr, Expr.renumberAll g (Expr.renumberAll f es) = Expr.renumberAll (g ∘ f) es
  | [] => rfl
  | e :: es => by simp only [Expr.renumberAll, e.renumber_renumber, Expr.renumberAll_renumberAll es]

end

theorem Name.renumber_comp : Name.renumber g ∘ Name.renumber f = Name.renumber (g ∘ f) := rfl

theorem Expr.renumber_comp : Expr.renumber g ∘ Expr.renumber f = Expr.renumber (g ∘ f) :=
  funext (Expr.renumber_renumber f g)

mutual

theorem Stmt.renumber_renumber : ∀ s : Stmt, (s.renumber f).renumber g = s.renumber (g ∘ f)
  | .expression _ | .print _ | .var _ _ | .ret _ => by
    simp only [Stmt.renumber, Name.renumber_renumber, Expr.renumber_renumber, Option.map_map, Expr.renumber_comp]
  | .block body => by simp only [Stmt.renumber, Stmt.renumberAll_renumberAll body]
  | .ifElse _ t none => by simp only [Stmt.renumber, Expr.renumber_renumber, t.renumber_renumber]
  | .ifElse _ t (some e) => by
    simp only [Stmt.renumber, Expr.renumber_renumber, t.renumber_renumber, e.renumber_renumber]
  | .loop _ b => by simp only [Stmt.renumber, Expr.renumber_renumber, b.renumber_renumber]
  | .function d => by simp only [Stmt.renumber, d.renumber_renumber]
  | .classDecl _ _ methods => by
    simp only [Stmt.renumber, Name.renumber_renumber, Option.map_map, Name.renumber_comp,
      FunctionDecl.renumberAll_renumberAll methods]

theorem FunctionDecl.renumber_renumber : ∀ d : FunctionDecl, (d.renumber f).renumber g = d.renumber (g ∘ f)
  | .mk _ _ body => by
    simp only [FunctionDecl.renumber, Name.renumber_renumber, List.map_map, Name.renumber_comp,
      Stmt.renumberAll_renumberAll body]

theorem Stmt.renumberAll_renumberAll :
    ∀ ss : List Stmt, Stmt.renumberAll g (Stmt.renumberAll f ss) = Stmt.renumberAll (g ∘ f) ss
  | [] => rfl
  | s :: ss => by simp only [Stmt.renumberAll, s.renumber_renumber, Stmt.renumberAll_renumberAll ss]

theorem FunctionDecl.renumberAll_renumberAll :
    ∀ ds : List FunctionDecl,
      FunctionDecl.renumberAll g (FunctionDecl.renumberAll f ds) = FunctionDecl.renumberAll (g ∘ f) ds
  | [] => rfl
  | d :: ds => by simp only [FunctionDecl.renumberAll, d.renumber_renumber, FunctionDecl.renumberAll_renumberAll ds]

end

end

end Lox
