/-
  Lox.Proofs.Grammar.Leaves — the names and numbers of a tree come from its tokens. If every
  identifier among the tokens has a property, so has every name of the tree, those of
  properties and methods included; if every number that can be read has one, so has every
  number of the tree (`Declarations.leaves`).
-/

import Lox.Proofs.Grammar.Heads

namespace Lox

section

variable (P : Name → Prop) (Q : Float → Prop)

/-! ## Trees -/

def Literal.Leaves : Literal → Prop
  | .number x => Q x
  | _ => True

mutual

/-- Names have the one property and numbers the other. -/
def Expr.Leaves : Expr → Prop
  | .literal v => v.Leaves Q
  | .var n => P n
  | .assign n v => P n ∧ v.Leaves
  | .unary _ _ e => e.Leaves
  | .binary _ _ l r => l.Leaves ∧ r.Leaves
  | .logical _ l r => l.Leaves ∧ r.Leaves
  | .call f args _ => f.Leaves ∧ Expr.AllLeaves args
  | .get o n => o.Leaves ∧ P n
  | .set o n v => o.Leaves ∧ P n ∧ v.Leaves
  | .this _ => True
  | .super _ m => P m
  | .group e => e.Leaves

def Expr.AllLeaves : List Expr → Prop
  | [] => True
  | e :: es => e.Leaves ∧ Expr.AllLeaves es

end

mutual

def Stmt.Leaves : Stmt → Prop
  | .expression e => e.Leaves P Q
  | .print e => e.Leaves P Q
  | .var n init => P n ∧ ∀ e ∈ init, e.Leaves P Q
  | .block body => Stmt.AllLeaves body
  | .ifElse c t none => c.Leaves P Q ∧ t.Leaves
  | .ifElse c t (some e) => c.Leaves P Q ∧ t.Leaves ∧ e.Leaves
  | .loop c b => c.Leaves P Q ∧ b.Leaves
  | .function d => d.Leaves
  | .ret v => ∀ e ∈ v, e.Leaves P Q
  | .classDecl n parent methods => P n ∧ (∀ p ∈ parent, P p) ∧ FunctionDecl.AllLeaves methods

def FunctionDecl.Leaves : FunctionDecl → Prop
  | .mk n params body => P n ∧ (∀ p ∈ params, P p) ∧ Stmt.AllLeaves body

def Stmt.AllLeaves : List Stmt → Prop
  | [] => True
  | s :: ss => s.Leaves ∧ Stmt.AllLeaves ss

def FunctionDecl.AllLeaves : List FunctionDecl → Prop
  | [] => True
  | d :: ds => d.Leaves ∧ FunctionDecl.AllLeaves ds

end

end

variable {P : Name → Prop} {Q : Float → Prop}

/-- The tree of a counting loop adds no leaves but the literal that stands for a missing condition.
-/
theorem Stmt.leaves_counting {init : Option Stmt} {cond inc : Option Expr} {body : Stmt} :
    (Stmt.counting init cond inc body).Leaves P Q ↔
      (∀ s ∈ init, s.Leaves P Q) ∧ (∀ e ∈ cond, e.Leaves P Q) ∧ (∀ e ∈ inc, e.Leaves P Q) ∧ body.Leaves P Q := by
  cases init <;> cases cond <;> cases inc <;>
    simp [Stmt.counting, Stmt.Leaves, Stmt.AllLeaves, Expr.Leaves, Literal.Leaves, and_comm]

/-! ## Tokens -/

structure LeafTokens (P : Name → Prop) (Q : Float → Prop) (ts : List Token) : Prop where
  names : ∀ t ∈ ts, t.kind = .identifier → P (Grammar.nameOf t)
  numbers : ∀ t ∈ ts, t.kind = .number → Q (Number.read t.lexeme)

namespace LeafTokens

theorem suffix {ts rest : List Token} (h : LeafTokens P Q ts) (hs : rest <:+ ts) : LeafTokens P Q rest :=
  ⟨fun t ht => h.names t (hs.subset ht), fun t ht => h.numbers t (hs.subset ht)⟩

theorem tail {t : Token} {ts : List Token} (h : LeafTokens P Q (t :: ts)) : LeafTokens P Q ts :=
  h.suffix (List.suffix_cons t ts)

theorem head {t : Token} {ts : List Token} (h : LeafTokens P Q (t :: ts)) (ht : t.kind = .identifier) :
    P (Grammar.nameOf t) :=
  h.names t List.mem_cons_self ht

end LeafTokens

namespace Grammar

/-! ## Derivations -/

theorem leaves_combine {p : Precedence} {kind : TokenKind} {combine : Nat → Expr → Expr → Expr}
    (h : Operator p kind combine) (line : Nat) {left right : Expr} (hl : left.Leaves P Q) (hr : right.Leaves P Q) :
    (combine line left right).Leaves P Q := by
  cases h <;> exact ⟨hl, hr⟩

mutual

/-- The leaves of a tree come from its tokens. -/
theorem Expression.leaves {ts rest : List Token} {e : Expr} : Expression ts e rest → LeafTokens P Q ts → e.Leaves P Q
  | .assign hn _ h, hts => ⟨hts.head hn, h.leaves hts.tail.tail⟩
  | .set h _ hn _ h', hts => by
    have hts' := hts.suffix h.headed.suffix
    exact ⟨h.leaves hts, hts'.tail.head hn, h'.leaves hts'.tail.tail.tail⟩
  | .operation h, hts => h.leaves hts

theorem Operation.leaves {ps : List Precedence} {ts rest : List Token} {e : Expr} :
    Operation ps ts e rest → LeafTokens P Q ts → e.Leaves P Q
  | .unary h, hts => h.leaves hts
  | .level h h', hts => h'.leaves (h.leaves hts) (hts.suffix h.headed.suffix)

theorem Operands.leaves {p : Precedence} {tighter : List Precedence} {left e : Expr} {ts rest : List Token} :
    Operands p tighter left ts e rest → left.Leaves P Q → LeafTokens P Q ts → e.Leaves P Q
  | .done, hleft, _ => hleft
  | .more hop h h', hleft, hts =>
    h'.leaves (leaves_combine hop _ hleft (h.leaves hts.tail)) (hts.tail.suffix h.headed.suffix)

theorem Unary.leaves {ts rest : List Token} {e : Expr} : Unary ts e rest → LeafTokens P Q ts → e.Leaves P Q
  | .not _ h, hts => h.leaves hts.tail
  | .negate _ h, hts => h.leaves hts.tail
  | .call h, hts => h.leaves hts

theorem Call.leaves {ts rest : List Token} {e : Expr} : Call ts e rest → LeafTokens P Q ts → e.Leaves P Q
  | .mk h h', hts => h'.leaves (h.leaves hts) (hts.suffix h.headed.suffix)

theorem Accesses.leaves {first e : Expr} {ts rest : List Token} :
    Accesses first ts e rest → first.Leaves P Q → LeafTokens P Q ts → e.Leaves P Q
  | .done, hfirst, _ => hfirst
  | .call _ _ h, hfirst, hts => h.leaves ⟨hfirst, trivial⟩ hts.tail.tail
  | .callWith _ ha _ h, hfirst, hts => h.leaves ⟨hfirst, ha.leaves hts.tail⟩ (hts.tail.suffix ha.headed.suffix).tail
  | .get _ hn h, hfirst, hts => h.leaves ⟨hfirst, hts.tail.head hn⟩ hts.tail.tail

theorem Arguments.leaves {ts rest : List Token} {es : List Expr} :
    Arguments ts es rest → LeafTokens P Q ts → Expr.AllLeaves P Q es
  | .one h, hts => ⟨h.leaves hts, trivial⟩
  | .more h _ h', hts => ⟨h.leaves hts, h'.leaves (hts.suffix h.headed.suffix).tail⟩

theorem Primary.leaves {ts rest : List Token} {e : Expr} : Primary ts e rest → LeafTokens P Q ts → e.Leaves P Q
  | .number ht, hts => hts.numbers _ List.mem_cons_self ht
  | .string _, _ => trivial
  | .var ht, hts => hts.head ht
  | .true _, _ => trivial
  | .false _, _ => trivial
  | .nil _, _ => trivial
  | .this _, _ => trivial
  | .super _ _ hm, hts => hts.tail.tail.head hm
  | .group _ h _, hts => h.leaves hts.tail

end

theorem Optional.leaves {ts rest : List Token} {o : Option Expr} (hts : LeafTokens P Q ts) :
    Optional Expression ts o rest → ∀ e ∈ o, e.Leaves P Q
  | .none => nofun
  | .some h => fun e he => by
    cases he
    exact h.leaves hts

theorem VarDecl.leaves {ts rest : List Token} {s : Stmt} (hts : LeafTokens P Q ts) : VarDecl ts s rest → s.Leaves P Q
  | .mk _ hn hinit _ => by
    refine ⟨hts.tail.head hn, fun e he => ?_⟩
    cases hinit with
    | none => cases he
    | some hinit =>
      cases he
      obtain ⟨_, hinit⟩ := hinit
      exact hinit.leaves hts.tail.tail.tail

theorem ExpressionStmt.leaves {ts rest : List Token} {s : Stmt} (hts : LeafTokens P Q ts) : ExpressionStmt ts s rest → s.Leaves P Q
  | .mk h _ => h.leaves hts

theorem ForInitializer.leaves {ts rest : List Token} {o : Option Stmt} (hts : LeafTokens P Q ts) :
    ForInitializer ts o rest → ∀ s ∈ o, s.Leaves P Q
  | .var h => fun s hs => by
    cases hs
    exact h.leaves hts
  | .expression h => fun s hs => by
    cases hs
    exact h.leaves hts
  | .none _ => nofun

theorem Parameters.leaves {ts rest : List Token} {names : List Name} :
    Parameters ts names rest → LeafTokens P Q ts → ∀ n ∈ names, P n
  | .one ht, hts => by
    intro n hn
    obtain rfl := List.mem_singleton.mp hn
    exact hts.head ht
  | .more ht _ h, hts => by
    intro n hn
    rcases List.mem_cons.mp hn with rfl | hn
    · exact hts.head ht
    · exact h.leaves hts.tail.tail n hn

mutual

theorem Statement.leaves {nearest isOpen : Bool} {ts rest : List Token} {s : Stmt} :
    Statement nearest isOpen ts s rest → LeafTokens P Q ts → s.Leaves P Q
  | .expression h, hts => h.leaves hts
  | .forLoop _ _ hinit hcond _ hinc _ hbody, hts => by
    have hts₁ := hts.tail.tail.suffix hinit.suffix
    have hts₂ := (hts₁.suffix hcond.expression_suffix).tail
    have hts₃ := (hts₂.suffix hinc.expression_suffix).tail
    exact Stmt.leaves_counting.mpr ⟨hinit.leaves hts.tail.tail, hcond.leaves hts₁, hinc.leaves hts₂, hbody.leaves hts₃⟩
  | .ifOnly _ _ hcond _ hbody, hts =>
    ⟨hcond.leaves hts.tail.tail, hbody.leaves (hts.tail.tail.suffix hcond.headed.suffix).tail⟩
  | .ifElse _ _ hcond _ hbody _ _ helse, hts => by
    have hts₁ := (hts.tail.tail.suffix hcond.headed.suffix).tail
    exact ⟨hcond.leaves hts.tail.tail, hbody.leaves hts₁, helse.leaves (hts₁.suffix hbody.headed.suffix).tail⟩
  | .print _ h _, hts => h.leaves hts.tail
  | .ret _ h _, hts => h.leaves hts.tail
  | .whileLoop _ _ hcond _ hbody, hts =>
    ⟨hcond.leaves hts.tail.tail, hbody.leaves (hts.tail.tail.suffix hcond.headed.suffix).tail⟩
  | .block _ h _, hts => h.leaves hts.tail

theorem Declaration.leaves {nearest isOpen : Bool} {ts rest : List Token} {s : Stmt} :
    Declaration nearest isOpen ts s rest → LeafTokens P Q ts → s.Leaves P Q
  | .classDecl _ hn hparent _ hmethods _, hts => by
    have hsuffix := hparent.suffix fun ⟨_, .mk _⟩ => suffix_of_cons (List.suffix_cons _ _)
    refine ⟨hts.tail.head hn, fun p hp => ?_, hmethods.leaves (hts.tail.tail.suffix hsuffix).tail⟩
    cases hparent with
    | none => cases hp
    | some h =>
      cases hp
      obtain ⟨_, ⟨ht⟩⟩ := h
      exact hts.tail.tail.tail.head ht
  | .function _ h, hts => h.leaves hts.tail
  | .var h, hts => h.leaves hts
  | .statement h, hts => h.leaves hts

theorem Declarations.leaves {nearest : Bool} {ts rest : List Token} {ss : List Stmt} :
    Declarations nearest ts ss rest → LeafTokens P Q ts → Stmt.AllLeaves P Q ss
  | .nil, _ => trivial
  | .cons h h', hts => ⟨h.leaves hts, h'.leaves (hts.suffix h.headed.suffix)⟩

theorem Function.leaves {nearest : Bool} {ts rest : List Token} {d : FunctionDecl} :
    Function nearest ts d rest → LeafTokens P Q ts → d.Leaves P Q
  | .mk hn _ hparams _ _ hbody _, hts => by
    have hsuffix := hparams.suffix fun h => h.headed.suffix
    refine ⟨hts.head hn, ?_, hbody.leaves (hts.tail.tail.suffix hsuffix).tail.tail⟩
    cases hparams with
    | none => exact nofun
    | some h => exact h.leaves hts.tail.tail

theorem Methods.leaves {nearest : Bool} {ts rest : List Token} {ds : List FunctionDecl} :
    Methods nearest ts ds rest → LeafTokens P Q ts → FunctionDecl.AllLeaves P Q ds
  | .nil, _ => trivial
  | .cons h h', hts => ⟨h.leaves hts, h'.leaves (hts.suffix h.headed.suffix)⟩

end

end Grammar

end Lox
