/-
  Lox.Proofs.Plain — no variable, function, class or parameter of a program bears a reserved
  word. The scanner makes an identifier of no such word (`scan_plain`), and the names of a
  tree are those of the identifiers it was read from (`Declarations.plain`).
-/

import Lox.Proofs.Eval.Scopes
import Lox.Proofs.Grammar.Leaves
import Lox.Token.Scan

namespace Lox

def Name.Plain (n : Name) : Prop := ¬ Reserved n.text

mutual

def Expr.Plain : Expr → Prop
  | .literal _ => True
  | .var n => n.Plain
  | .assign n v => n.Plain ∧ v.Plain
  | .unary _ _ e => e.Plain
  | .binary _ _ l r => l.Plain ∧ r.Plain
  | .logical _ l r => l.Plain ∧ r.Plain
  | .call f args _ => f.Plain ∧ Expr.AllPlain args
  | .get o _ => o.Plain
  | .set o _ v => o.Plain ∧ v.Plain
  | .this _ => True
  | .super _ _ => True
  | .group e => e.Plain

def Expr.AllPlain : List Expr → Prop
  | [] => True
  | e :: es => e.Plain ∧ Expr.AllPlain es

end

mutual

def Stmt.Plain : Stmt → Prop
  | .expression e => e.Plain
  | .print e => e.Plain
  | .var n init => n.Plain ∧ ∀ e ∈ init, e.Plain
  | .block body => Stmt.AllPlain body
  | .ifElse c t none => c.Plain ∧ t.Plain
  | .ifElse c t (some e) => c.Plain ∧ t.Plain ∧ e.Plain
  | .loop c b => c.Plain ∧ b.Plain
  | .function d => d.Plain
  | .ret v => ∀ e ∈ v, e.Plain
  | .classDecl n parent methods => n.Plain ∧ (∀ p ∈ parent, p.Plain) ∧ FunctionDecl.AllPlain methods

def FunctionDecl.Plain : FunctionDecl → Prop
  | .mk n params body => n.Plain ∧ (∀ p ∈ params, p.Plain) ∧ Stmt.AllPlain body

def Stmt.AllPlain : List Stmt → Prop
  | [] => True
  | s :: ss => s.Plain ∧ Stmt.AllPlain ss

def FunctionDecl.AllPlain : List FunctionDecl → Prop
  | [] => True
  | d :: ds => d.Plain ∧ FunctionDecl.AllPlain ds

end

theorem FunctionDecl.allPlain_iff {ds : List FunctionDecl} : FunctionDecl.AllPlain ds ↔ ∀ d ∈ ds, d.Plain := by
  induction ds with
  | nil => simp [FunctionDecl.AllPlain]
  | cons d ds ih => simp [FunctionDecl.AllPlain, ih]

/-! ## Identifiers -/

def PlainTokens (ts : List Token) : Prop := ∀ t ∈ ts, t.kind = .identifier → ¬ Reserved t.lexeme

theorem ofWord_reserved {word : Bytes} (h : Reserved word) : TokenKind.ofWord word ≠ .identifier := by
  rcases h with rfl | rfl <;> decide

theorem symbols_not_identifier {c : UInt8} {kind : TokenKind} (h : TokenKind.symbols.lookup c = some kind) :
    kind ≠ .identifier ∧ kind.withEqual? ≠ some .identifier := by
  have hall : ∀ e ∈ TokenKind.symbols, e.2 ≠ .identifier ∧ e.2.withEqual? ≠ some .identifier := by decide
  obtain ⟨l₁, l₂, hmem, -⟩ := List.lookup_eq_some_iff.mp h
  exact hall (c, kind) (by rw [hmem]; simp)

theorem operator_not_identifier {kind : TokenKind} (h : kind ≠ .identifier) (h' : kind.withEqual? ≠ some .identifier)
    (rest : Bytes) : (Segment.operator kind rest).1 ≠ .identifier := by
  unfold Segment.operator
  split
  · rename_i longer e more hlonger
    split
    · rintro rfl
      exact h' hlonger
    · exact h
  · exact h

theorem front_plain (c : UInt8) (rest : Bytes) (h : (Segment.front c rest).kind = .token .identifier) :
    ¬ Reserved (Segment.front c rest).text := by
  revert h
  unfold Segment.front
  split
  · nofun
  · split
    · nofun
    · split
      · split <;> nofun
      · split
        · nofun
        · split
          · intro h hr
            exact ofWord_reserved hr (by simpa using h)
          · split
            · rename_i kind hkind
              intro h
              obtain ⟨h₁, h₂⟩ := symbols_not_identifier hkind
              exact absurd (by simpa using h) (operator_not_identifier h₁ h₂ rest)
            · nofun

theorem split_plain (source : Bytes) :
    ∀ s ∈ Segment.split source, s.kind = .token .identifier → ¬ Reserved s.text := by
  fun_induction Segment.split source with
  | case1 => intro s hs; cases hs
  | case2 c rest ih =>
    intro s hs
    rcases List.mem_cons.mp hs with rfl | hs
    · exact front_plain c rest
    · exact ih s hs

theorem ofSegments_plain (line : Nat) (segments : List Segment)
    (h : ∀ s ∈ segments, s.kind = .token .identifier → ¬ Reserved s.text) :
    PlainTokens (Scan.ofSegments line segments).tokens := by
  induction segments generalizing line with
  | nil => intro t ht; cases ht
  | cons s segments ih =>
    intro t ht hk
    rw [Scan.ofSegments_cons] at ht
    rcases List.mem_append.mp ht with ht | ht
    · unfold Scan.tokenAt at ht
      split at ht
      · rename_i kind hkind
        obtain rfl : t = ⟨kind, s.text, line + s.newlines⟩ := by simpa using ht
        obtain rfl : kind = .identifier := hk
        exact h s List.mem_cons_self hkind
      · cases ht
    · exact ih _ (fun s' hs' => h s' (List.mem_cons_of_mem s hs')) t ht hk

/-- The scanner makes no identifier of a reserved word. -/
theorem scan_plain (source : Bytes) : PlainTokens (scan source).tokens :=
  ofSegments_plain 1 _ (split_plain source)

/-! ## Trees -/

section

variable {Q : Float → Prop}

mutual

theorem Expr.plain_of_leaves : (e : Expr) → e.Leaves Name.Plain Q → e.Plain
  | .literal _, _ => trivial
  | .var _, h => h
  | .assign _ v, h => ⟨h.1, v.plain_of_leaves h.2⟩
  | .unary _ _ e, h => e.plain_of_leaves h
  | .binary _ _ l r, h => ⟨l.plain_of_leaves h.1, r.plain_of_leaves h.2⟩
  | .logical _ l r, h => ⟨l.plain_of_leaves h.1, r.plain_of_leaves h.2⟩
  | .call f args _, h => ⟨f.plain_of_leaves h.1, Expr.allPlain_of_leaves args h.2⟩
  | .get o _, h => o.plain_of_leaves h.1
  | .set o _ v, h => ⟨o.plain_of_leaves h.1, v.plain_of_leaves h.2.2⟩
  | .this _, _ => trivial
  | .super _ _, _ => trivial
  | .group e, h => e.plain_of_leaves h

theorem Expr.allPlain_of_leaves : (es : List Expr) → Expr.AllLeaves Name.Plain Q es → Expr.AllPlain es
  | [], _ => trivial
  | e :: es, h => ⟨e.plain_of_leaves h.1, Expr.allPlain_of_leaves es h.2⟩

end

mutual

theorem Stmt.plain_of_leaves : (s : Stmt) → s.Leaves Name.Plain Q → s.Plain
  | .expression e, h => e.plain_of_leaves h
  | .print e, h => e.plain_of_leaves h
  | .var _ _, h => ⟨h.1, fun e he => e.plain_of_leaves (h.2 e he)⟩
  | .block body, h => Stmt.allPlain_of_leaves body h
  | .ifElse c t none, h => ⟨c.plain_of_leaves h.1, t.plain_of_leaves h.2⟩
  | .ifElse c t (some e), h => ⟨c.plain_of_leaves h.1, t.plain_of_leaves h.2.1, e.plain_of_leaves h.2.2⟩
  | .loop c b, h => ⟨c.plain_of_leaves h.1, b.plain_of_leaves h.2⟩
  | .function d, h => d.plain_of_leaves h
  | .ret _, h => fun e he => e.plain_of_leaves (h e he)
  | .classDecl _ _ methods, h => ⟨h.1, h.2.1, FunctionDecl.allPlain_of_leaves methods h.2.2⟩

theorem FunctionDecl.plain_of_leaves : (d : FunctionDecl) → d.Leaves Name.Plain Q → d.Plain
  | .mk _ _ body, h => ⟨h.1, h.2.1, Stmt.allPlain_of_leaves body h.2.2⟩

theorem Stmt.allPlain_of_leaves : (ss : List Stmt) → Stmt.AllLeaves Name.Plain Q ss → Stmt.AllPlain ss
  | [], _ => trivial
  | s :: ss, h => ⟨s.plain_of_leaves h.1, Stmt.allPlain_of_leaves ss h.2⟩

theorem FunctionDecl.allPlain_of_leaves : (ds : List FunctionDecl) → FunctionDecl.AllLeaves Name.Plain Q ds →
    FunctionDecl.AllPlain ds
  | [], _ => trivial
  | d :: ds, h => ⟨d.plain_of_leaves h.1, FunctionDecl.allPlain_of_leaves ds h.2⟩

end

end

theorem Grammar.Declarations.plain {nearest : Bool} {ts rest : List Token} {ss : List Stmt}
    (h : Declarations nearest ts ss rest) (hts : PlainTokens ts) : Stmt.AllPlain ss :=
  Stmt.allPlain_of_leaves ss (h.leaves (Q := fun _ => True) ⟨hts, fun _ _ _ => trivial⟩)

end Lox
