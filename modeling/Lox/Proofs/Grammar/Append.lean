/-
  Lox.Proofs.Grammar.Append — a phrase is what it is whatever stands behind it: a derivation
  goes through with more tokens at the end. So one program after another is a program
  (`Program.append`), and is parsed as the two are (`parse_append`), also if the first ends
  in an `if` without `else`: no program starts with one.
-/

import Lox.Proofs.Grammar.Acceptance

namespace Lox.Grammar

variable (more : List Token)

mutual

/-- A derivation does not look at what follows its phrase. -/
theorem Expression.append {ts rest : List Token} {e : Expr} :
    Expression ts e rest → Expression (ts ++ more) e (rest ++ more)
  | .assign hn he h => .assign hn he h.append
  | .set ho hd hn he h => .set ho.append hd hn he h.append
  | .operation h => .operation h.append

theorem Operation.append {ps : List Precedence} {ts rest : List Token} {e : Expr} :
    Operation ps ts e rest → Operation ps (ts ++ more) e (rest ++ more)
  | .unary h => .unary h.append
  | .level h h' => .level h.append h'.append

theorem Operands.append {p : Precedence} {tighter : List Precedence} {left e : Expr} {ts rest : List Token} :
    Operands p tighter left ts e rest → Operands p tighter left (ts ++ more) e (rest ++ more)
  | .done => .done
  | .more ho h h' => .more ho h.append h'.append

theorem Unary.append {ts rest : List Token} {e : Expr} : Unary ts e rest → Unary (ts ++ more) e (rest ++ more)
  | .not ht h => .not ht h.append
  | .negate ht h => .negate ht h.append
  | .call h => .call h.append

theorem Call.append {ts rest : List Token} {e : Expr} : Call ts e rest → Call (ts ++ more) e (rest ++ more)
  | .mk h h' => .mk h.append h'.append

theorem Accesses.append {first e : Expr} {ts rest : List Token} :
    Accesses first ts e rest → Accesses first (ts ++ more) e (rest ++ more)
  | .done => .done
  | .call ho hc h => .call ho hc h.append
  | .callWith ho ha hc h => .callWith ho ha.append hc h.append
  | .get hd hn h => .get hd hn h.append

theorem Arguments.append {ts rest : List Token} {es : List Expr} :
    Arguments ts es rest → Arguments (ts ++ more) es (rest ++ more)
  | .one h => .one h.append
  | .more h hc h' => .more h.append hc h'.append

theorem Primary.append {ts rest : List Token} {e : Expr} : Primary ts e rest → Primary (ts ++ more) e (rest ++ more)
  | .number ht => .number ht
  | .string ht => .string ht
  | .var ht => .var ht
  | .true ht => .true ht
  | .false ht => .false ht
  | .nil ht => .nil ht
  | .this ht => .this ht
  | .super ht hd hm => .super ht hd hm
  | .group ho h hc => .group ho h.append hc

end

theorem Optional.append {α : Type} {Phrase : List Token → α → List Token → Prop} {ts rest : List Token} {o : Option α}
    (hp : ∀ {ts rest a}, Phrase ts a rest → Phrase (ts ++ more) a (rest ++ more)) :
    Optional Phrase ts o rest → Optional Phrase (ts ++ more) o (rest ++ more)
  | .none => .none
  | .some h => .some (hp h)

theorem After.append {α : Type} {kind : TokenKind} {Phrase : List Token → α → List Token → Prop} {ts rest : List Token}
    {a : α} (hp : ∀ {ts rest a}, Phrase ts a rest → Phrase (ts ++ more) a (rest ++ more)) :
    After kind Phrase ts a rest → After kind Phrase (ts ++ more) a (rest ++ more)
  | .mk ht h => .mk ht (hp h)

theorem Identifier.append {ts rest : List Token} {n : Name} :
    Identifier ts n rest → Identifier (ts ++ more) n (rest ++ more)
  | .mk ht => .mk ht

theorem VarDecl.append {ts rest : List Token} {s : Stmt} : VarDecl ts s rest → VarDecl (ts ++ more) s (rest ++ more)
  | .mk hk hn h hs => .mk hk hn (h.append more (After.append more (Expression.append more))) hs

theorem ExpressionStmt.append {ts rest : List Token} {s : Stmt} :
    ExpressionStmt ts s rest → ExpressionStmt (ts ++ more) s (rest ++ more)
  | .mk h hs => .mk (h.append more) hs

theorem ForInitializer.append {ts rest : List Token} {o : Option Stmt} :
    ForInitializer ts o rest → ForInitializer (ts ++ more) o (rest ++ more)
  | .var h => .var (h.append more)
  | .expression h => .expression (h.append more)
  | .none hs => .none hs

theorem Parameters.append {ts rest : List Token} {names : List Name} :
    Parameters ts names rest → Parameters (ts ++ more) names (rest ++ more)
  | .one ht => .one ht
  | .more ht hc h => .more ht hc h.append

variable {nearest : Bool}

mutual

theorem Statement.append {isOpen : Bool} {ts rest : List Token} {s : Stmt} :
    Statement nearest isOpen ts s rest → Statement nearest isOpen (ts ++ more) s (rest ++ more)
  | .expression h => .expression (h.append more)
  | .forLoop hk ho h h₁ hs h₂ hc hb =>
    .forLoop hk ho (h.append more) (h₁.append more (Expression.append more)) hs
      (h₂.append more (Expression.append more)) hc hb.append
  | .ifOnly hk ho h hc hb => .ifOnly hk ho (h.append more) hc hb.append
  | .ifElse hk ho h hc hb hclosed hk' he => .ifElse hk ho (h.append more) hc hb.append hclosed hk' he.append
  | .print hk h hs => .print hk (h.append more) hs
  | .ret hk h hs => .ret hk (h.append more (Expression.append more)) hs
  | .whileLoop hk ho h hc hb => .whileLoop hk ho (h.append more) hc hb.append
  | .block ho h hc => .block ho h.append hc

theorem Declaration.append {isOpen : Bool} {ts rest : List Token} {s : Stmt} :
    Declaration nearest isOpen ts s rest → Declaration nearest isOpen (ts ++ more) s (rest ++ more)
  | .classDecl hk hn h ho hm hc =>
    .classDecl hk hn (h.append more (After.append more (Identifier.append more))) ho hm.append hc
  | .function hk h => .function hk h.append
  | .var h => .var (h.append more)
  | .statement h => .statement h.append

theorem Declarations.append {ts rest : List Token} {ss : List Stmt} :
    Declarations nearest ts ss rest → Declarations nearest (ts ++ more) ss (rest ++ more)
  | .nil => .nil
  | .cons h h' => .cons h.append h'.append

theorem Function.append {ts rest : List Token} {d : FunctionDecl} :
    Function nearest ts d rest → Function nearest (ts ++ more) d (rest ++ more)
  | .mk hn ho h hc hb hbody hb' => .mk hn ho (h.append more (Parameters.append more)) hc hb hbody.append hb'

theorem Methods.append {ts rest : List Token} {ds : List FunctionDecl} :
    Methods nearest ts ds rest → Methods nearest (ts ++ more) ds (rest ++ more)
  | .nil => .nil
  | .cons h h' => .cons h.append h'.append

end

/-- Declarations followed by declarations. -/
theorem Declarations.trans {ts ts' rest : List Token} {ss ss' : List Stmt} :
    Declarations nearest ts ss ts' → Declarations nearest ts' ss' rest → Declarations nearest ts (ss ++ ss') rest
  | .nil, h' => h'
  | .cons h hs, h' => .cons h (hs.trans h')

/-- Two programs make one. -/
theorem Program.append {ts ts' : List Token} {program program' : List Stmt} (h : Program nearest ts program)
    (h' : Program nearest ts' program') : Program nearest (ts ++ ts') (program ++ program') := by
  have hfirst : Declarations nearest (ts ++ ts') program ([] ++ ts') := Declarations.append ts' h
  exact hfirst.trans h'

end Lox.Grammar

namespace Lox

theorem ValidProgram.append {program program' : List Stmt} (h : ValidProgram program) (h' : ValidProgram program') :
    ValidProgram (program ++ program') := by
  unfold ValidProgram at *
  induction program with
  | nil => exact h'
  | cons s rest ih => exact ⟨h.1, ih h.2⟩

open Grammar

/-- Two token lists that are parsed without a report are parsed together like each by itself. -/
theorem parse_append {ts₁ ts₂ : List Token} {line₁ line₂ : Nat} (h₁ : (parse ts₁ line₁).reports = [])
    (h₂ : (parse ts₂ line₂).reports = []) (endLine : Nat) :
    (parse (ts₁ ++ ts₂) endLine).reports = [] ∧
      (parse (ts₁ ++ ts₂) endLine).statements = (parse ts₁ line₁).statements ++ (parse ts₂ line₂).statements := by
  have hprogram₁ := program_of_parse true h₁
  have hprogram₂ := program_of_parse true h₂
  have hvalid₁ := (parse_program hprogram₁).2.mp h₁
  have hvalid₂ := (parse_program hprogram₂).2.mp h₂
  obtain ⟨hstatements, hreports⟩ := parse_program (hprogram₁.append hprogram₂)
  exact ⟨hreports.mpr (hvalid₁.append hvalid₂), hstatements⟩

end Lox
