/-
  Lox.Proofs.Grammar.Nesting — brackets in a phrase come in pairs. `Balanced` lists close
  every bracket that they open, with its own partner, in the reverse order. Whatever the
  grammar derives is such a list (`Program.balanced`). Wherever a balanced list is cut, no
  closing bracket is ahead of its partner, and where some bracket is open at the cut, the cut
  is between the two of a pair (`Balanced.cut`).
-/

import Lox.Proofs.Brackets
import Lox.Proofs.Grammar

namespace Lox.Grammar

open Brackets (net net_append)

inductive Pair : TokenKind → TokenKind → Prop
  | parens : Pair .leftParen .rightParen
  | braces : Pair .leftBrace .rightBrace

inductive Balanced : List TokenKind → Prop
  | nil : Balanced []
  | other {kind : TokenKind} {rest : List TokenKind} : kind.change = 0 → Balanced rest → Balanced (kind :: rest)
  | pair {opening closing : TokenKind} {inside rest : List TokenKind} :
      Pair opening closing → Balanced inside → Balanced rest → Balanced (opening :: inside ++ closing :: rest)

/-! ## Cuts -/

theorem Pair.change {opening closing : TokenKind} (h : Pair opening closing) :
    opening.change = 1 ∧ closing.change = -1 := by
  cases h <;> exact ⟨rfl, rfl⟩

theorem Balanced.append {kinds kinds' : List TokenKind} (h : Balanced kinds) (h' : Balanced kinds') :
    Balanced (kinds ++ kinds') := by
  induction h with
  | nil => exact h'
  | other hkind _ ih => exact .other hkind ih
  | pair hpair hinside _ _ ih =>
    rw [List.append_assoc, List.cons_append]
    exact .pair hpair hinside ih

/-- As many brackets are closed as are opened. -/
theorem Balanced.net_eq_zero {kinds : List TokenKind} (h : Balanced kinds) : net kinds = 0 := by
  induction h with
  | nil => rfl
  | other hkind _ ih => rw [net, hkind, ih, Int.add_zero]
  | pair hpair _ _ ihinside ih =>
    rw [net_append, net, net, ihinside, ih, hpair.change.1, hpair.change.2]
    rfl

/-- The cut between `front` and `back` is inside a pair of brackets. -/
def Enclosed (front back : List TokenKind) : Prop :=
  ∃ before opening inside inside' closing after, front = before ++ opening :: inside ∧
    back = inside' ++ closing :: after ∧ Pair opening closing ∧ Balanced (inside ++ inside')

theorem Enclosed.append_left {front back : List TokenKind} (h : Enclosed front back) (before : List TokenKind) :
    Enclosed (before ++ front) back := by
  obtain ⟨before', opening, inside, inside', closing, after, rfl, rfl, hpair, hinside⟩ := h
  exact ⟨before ++ before', opening, inside, inside', closing, after, (List.append_assoc _ _ _).symm, rfl, hpair, hinside⟩

/-- Up to any point at least as many are opened as are closed, and more only inside of a pair. -/
theorem Balanced.cut {kinds : List TokenKind} (h : Balanced kinds) {front back : List TokenKind}
    (heq : kinds = front ++ back) : 0 ≤ net front ∧ (1 ≤ net front → Enclosed front back) := by
  induction h generalizing front back with
  | nil =>
    obtain ⟨rfl, -⟩ := List.append_eq_nil_iff.mp heq.symm
    simp [net]
  | @other kind rest hkind _ ih =>
    rcases List.cons_eq_append_iff.mp heq with ⟨rfl, -⟩ | ⟨front', rfl, hrest⟩
    · simp [net]
    · obtain ⟨hnonneg, hinside⟩ := ih hrest
      rw [net, hkind, Int.zero_add]
      exact ⟨hnonneg, fun h => (hinside h).append_left [kind]⟩
  | @pair opening closing inside rest hpair hinside hrest ihinside ih =>
    obtain ⟨hopening, hclosing⟩ := hpair.change
    rw [List.cons_append] at heq
    rcases List.cons_eq_append_iff.mp heq with ⟨rfl, -⟩ | ⟨front', rfl, htail⟩
    · simp [net]
    · have hbetween : ∀ inside', inside = front' ++ inside' → back = inside' ++ closing :: rest →
          0 ≤ net (opening :: front') ∧ (1 ≤ net (opening :: front') → Enclosed (opening :: front') back) := by
        intro inside' hfront hback
        have hnonneg := (ihinside hfront).1
        rw [net, hopening]
        refine ⟨by omega, fun _ => ?_⟩
        exact ⟨[], opening, front', inside', closing, rest, rfl, hback, hpair, hfront ▸ hinside⟩
      rcases List.append_eq_append_iff.mp htail with ⟨more, hfront, hmore⟩ | ⟨inside', hfront, hback⟩
      · rcases List.cons_eq_append_iff.mp hmore with ⟨rfl, hback⟩ | ⟨front'', rfl, hrest'⟩
        · rw [List.append_nil] at hfront
          exact hbetween [] (by rw [hfront, List.append_nil]) hback
        · -- behind the pair, which does not count
          obtain ⟨hnonneg, henclosed⟩ := ih hrest'
          have hnet : net (opening :: front') = net front'' := by
            rw [hfront, net, net_append, net, hopening, hclosing, hinside.net_eq_zero]
            omega
          rw [hnet, hfront]
          refine ⟨hnonneg, fun h => ?_⟩
          have happend := (henclosed h).append_left (opening :: inside ++ [closing])
          rw [List.append_assoc] at happend
          exact happend
      · exact hbetween inside' hfront hback

/-! ## Phrases -/

/-- What stands between `ts` and `rest` is balanced. -/
def Nested (ts rest : List Token) : Prop := ∃ read, ts = read ++ rest ∧ Balanced (read.map Token.kind)

namespace Nested

variable {t opening closing : Token} {kind : TokenKind} {ts ts' rest : List Token}

theorem refl : Nested rest rest := ⟨[], rfl, .nil⟩

theorem trans (h : Nested ts ts') (h' : Nested ts' rest) : Nested ts rest := by
  obtain ⟨read, rfl, hread⟩ := h
  obtain ⟨read', rfl, hread'⟩ := h'
  refine ⟨read ++ read', (List.append_assoc _ _ _).symm, ?_⟩
  rw [List.map_append]
  exact hread.append hread'

theorem cons (ht : t.kind = kind) (hkind : kind.change = 0) (h : Nested ts rest) : Nested (t :: ts) rest := by
  obtain ⟨read, rfl, hread⟩ := h
  exact ⟨t :: read, rfl, .other (ht ▸ hkind) hread⟩

/-- One more token is read at the end. -/
theorem snoc (h : Nested ts (t :: rest)) (ht : t.kind = kind) (hkind : kind.change = 0) : Nested ts rest :=
  h.trans (refl.cons ht hkind)

theorem wrap {kind' : TokenKind} (ho : opening.kind = kind) (h : Nested ts (closing :: rest)) (hc : closing.kind = kind')
    (hpair : Pair kind kind') : Nested (opening :: ts) rest := by
  obtain ⟨read, rfl, hread⟩ := h
  refine ⟨opening :: read ++ [closing], ?_, ?_⟩
  · simp
  · rw [List.map_append, List.map_cons, ho]
    exact .pair (hc ▸ hpair) hread .nil

end Nested

theorem Operator.change {p : Precedence} {kind : TokenKind} {combine : Nat → Expr → Expr → Expr}
    (h : Operator p kind combine) : kind.change = 0 := by
  cases h <;> rfl

mutual

/-- Every phrase has its brackets in pairs. -/
theorem Expression.nested {ts rest : List Token} {e : Expr} : Expression ts e rest → Nested ts rest
  | .assign hn he h => (h.nested.cons he rfl).cons hn rfl
  | .set ho hd hn he h => ho.nested.trans (((h.nested.cons he rfl).cons hn rfl).cons hd rfl)
  | .operation h => h.nested

theorem Operation.nested {ps : List Precedence} {ts rest : List Token} {e : Expr} : Operation ps ts e rest → Nested ts rest
  | .unary h => h.nested
  | .level h h' => h.nested.trans h'.nested

theorem Operands.nested {p : Precedence} {tighter : List Precedence} {left e : Expr} {ts rest : List Token} :
    Operands p tighter left ts e rest → Nested ts rest
  | .done => .refl
  | .more ho h h' => (h.nested.trans h'.nested).cons rfl ho.change

theorem Unary.nested {ts rest : List Token} {e : Expr} : Unary ts e rest → Nested ts rest
  | .not ht h => h.nested.cons ht rfl
  | .negate ht h => h.nested.cons ht rfl
  | .call h => h.nested

theorem Call.nested {ts rest : List Token} {e : Expr} : Call ts e rest → Nested ts rest
  | .mk h h' => h.nested.trans h'.nested

theorem Accesses.nested {first e : Expr} {ts rest : List Token} : Accesses first ts e rest → Nested ts rest
  | .done => .refl
  | .call ho hc h => (Nested.refl.wrap ho hc .parens).trans h.nested
  | .callWith ho ha hc h => (ha.nested.wrap ho hc .parens).trans h.nested
  | .get hd hn h => (h.nested.cons hn rfl).cons hd rfl

theorem Arguments.nested {ts rest : List Token} {es : List Expr} : Arguments ts es rest → Nested ts rest
  | .one h => h.nested
  | .more h hc h' => h.nested.trans (h'.nested.cons hc rfl)

theorem Primary.nested {ts rest : List Token} {e : Expr} : Primary ts e rest → Nested ts rest
  | .number ht => Nested.refl.cons ht rfl
  | .string ht => Nested.refl.cons ht rfl
  | .var ht => Nested.refl.cons ht rfl
  | .true ht => Nested.refl.cons ht rfl
  | .false ht => Nested.refl.cons ht rfl
  | .nil ht => Nested.refl.cons ht rfl
  | .this ht => Nested.refl.cons ht rfl
  | .super ht hd hm => ((Nested.refl.cons hm rfl).cons hd rfl).cons ht rfl
  | .group ho h hc => h.nested.wrap ho hc .parens

end

theorem Optional.nested {α : Type} {Phrase : List Token → α → List Token → Prop} {ts rest : List Token} {o : Option α}
    (hp : ∀ {ts rest a}, Phrase ts a rest → Nested ts rest) : Optional Phrase ts o rest → Nested ts rest
  | .none => .refl
  | .some h => hp h

theorem After.nested {α : Type} {kind : TokenKind} {Phrase : List Token → α → List Token → Prop} {ts rest : List Token}
    {a : α} (hkind : kind.change = 0) (hp : ∀ {ts rest a}, Phrase ts a rest → Nested ts rest) :
    After kind Phrase ts a rest → Nested ts rest
  | .mk ht h => (hp h).cons ht hkind

theorem Identifier.nested {ts rest : List Token} {n : Name} : Identifier ts n rest → Nested ts rest
  | .mk ht => Nested.refl.cons ht rfl

theorem VarDecl.nested {ts rest : List Token} {s : Stmt} : VarDecl ts s rest → Nested ts rest
  | .mk hk hn h hs => (((h.nested (After.nested rfl Expression.nested)).snoc hs rfl).cons hn rfl).cons hk rfl

theorem ExpressionStmt.nested {ts rest : List Token} {s : Stmt} : ExpressionStmt ts s rest → Nested ts rest
  | .mk h hs => h.nested.snoc hs rfl

theorem ForInitializer.nested {ts rest : List Token} {o : Option Stmt} : ForInitializer ts o rest → Nested ts rest
  | .var h => h.nested
  | .expression h => h.nested
  | .none hs => Nested.refl.cons hs rfl

theorem Parameters.nested {ts rest : List Token} {names : List Name} : Parameters ts names rest → Nested ts rest
  | .one ht => Nested.refl.cons ht rfl
  | .more ht hc h => (h.nested.cons hc rfl).cons ht rfl

variable {nearest : Bool}

mutual

theorem Statement.nested {isOpen : Bool} {ts rest : List Token} {s : Stmt} :
    Statement nearest isOpen ts s rest → Nested ts rest
  | .expression h => h.nested
  | .forLoop hk ho h h₁ hs h₂ hc hb =>
    ((((h.nested.trans ((h₁.nested Expression.nested).snoc hs rfl)).trans (h₂.nested Expression.nested)).wrap ho hc
      .parens).trans hb.nested).cons hk rfl
  | .ifOnly hk ho h hc hb => ((h.nested.wrap ho hc .parens).trans hb.nested).cons hk rfl
  | .ifElse hk ho h hc hb _ hk' he =>
    ((h.nested.wrap ho hc .parens).trans (hb.nested.trans (he.nested.cons hk' rfl))).cons hk rfl
  | .print hk h hs => (h.nested.snoc hs rfl).cons hk rfl
  | .ret hk h hs => ((h.nested Expression.nested).snoc hs rfl).cons hk rfl
  | .whileLoop hk ho h hc hb => ((h.nested.wrap ho hc .parens).trans hb.nested).cons hk rfl
  | .block ho h hc => h.nested.wrap ho hc .braces

theorem Declaration.nested {isOpen : Bool} {ts rest : List Token} {s : Stmt} :
    Declaration nearest isOpen ts s rest → Nested ts rest
  | .classDecl hk hn h ho hm hc =>
    (((h.nested (After.nested rfl Identifier.nested)).trans (hm.nested.wrap ho hc .braces)).cons hn rfl).cons hk rfl
  | .function hk h => h.nested.cons hk rfl
  | .var h => h.nested
  | .statement h => h.nested

theorem Declarations.nested {ts rest : List Token} {ss : List Stmt} : Declarations nearest ts ss rest → Nested ts rest
  | .nil => .refl
  | .cons h h' => h.nested.trans h'.nested

theorem Function.nested {ts rest : List Token} {d : FunctionDecl} : Function nearest ts d rest → Nested ts rest
  | .mk hn ho h hc hb hbody hb' =>
    (((h.nested Parameters.nested).wrap ho hc .parens).trans (hbody.nested.wrap hb hb' .braces)).cons hn rfl

theorem Methods.nested {ts rest : List Token} {ds : List FunctionDecl} : Methods nearest ts ds rest → Nested ts rest
  | .nil => .refl
  | .cons h h' => h.nested.trans h'.nested

end

/-- So do whole programs. -/
theorem Program.balanced {tokens : List Token} {program : List Stmt} (h : Program nearest tokens program) :
    Balanced (tokens.map Token.kind) := by
  obtain ⟨read, hread, hbalanced⟩ := Declarations.nested h
  rw [List.append_nil] at hread
  rw [hread]
  exact hbalanced

end Lox.Grammar
