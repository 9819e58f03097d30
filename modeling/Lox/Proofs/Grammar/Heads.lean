/-
  Lox.Proofs.Grammar.Heads — which tokens a phrase can start with, and that it takes at
  least one. The parser decides what to read by the next token, so these facts say that it
  decides as the grammar does.
-/

import Lox.Proofs.Grammar

namespace Lox.Grammar

def Next (kind : TokenKind) (ts : List Token) : Prop := ∃ t rest, ts = t :: rest ∧ t.kind = kind

@[simp] theorem next_cons {kind : TokenKind} {t : Token} {rest : List Token} : Next kind (t :: rest) ↔ t.kind = kind := by
  constructor
  · rintro ⟨_, _, h, hk⟩
    cases h
    exact hk
  · intro h
    exact ⟨t, rest, rfl, h⟩

@[simp] theorem not_next_nil {kind : TokenKind} : ¬ Next kind [] := by
  rintro ⟨_, _, h, _⟩
  cases h

theorem Next.unique {kind kind' : TokenKind} {ts : List Token} (h : Next kind ts) (h' : Next kind' ts) : kind = kind' := by
  obtain ⟨t, rest, rfl, rfl⟩ := h
  exact next_cons.mp h'

/-- A single operand is an expression, since it needs no operator of any level. -/
theorem Call.expression {ts rest : List Token} {e : Expr} (h : Call ts e rest) : Expression ts e rest := by
  have hlevels : ∀ ps, Operation ps ts e rest := by
    intro ps
    induction ps with
    | nil => exact .unary (.call h)
    | cons p ps ih => exact .level ih .done
  exact .operation (hlevels _)

theorem Primary.expression {ts rest : List Token} {e : Expr} (h : Primary ts e rest) : Expression ts e rest :=
  Call.expression (.mk h .done)

/-! ## First tokens -/

def beginsPrimary : TokenKind → Bool
  | .number | .string | .identifier | .true_ | .false_ | .nil_ | .this_ | .super_ | .leftParen => true
  | _ => false

def beginsExpression (kind : TokenKind) : Bool := beginsPrimary kind || kind matches .bang | .minus

def beginsStatement (kind : TokenKind) : Bool :=
  beginsExpression kind || kind matches .for_ | .if_ | .print_ | .return_ | .while_ | .leftBrace

def beginsDeclaration (kind : TokenKind) : Bool := beginsStatement kind || kind matches .class_ | .fun_ | .var_

/-- What stands between `ts` and `rest` begins with a token of some sort. -/
def Headed (begins : TokenKind → Bool) (ts rest : List Token) : Prop :=
  ∃ t more, ts = t :: more ∧ begins t.kind = true ∧ rest <:+ more

section

variable {begins begins' : TokenKind → Bool} {t : Token} {ts ts' rest : List Token}

theorem Headed.cons {kind : TokenKind} (ht : t.kind = kind) (h : rest <:+ ts) (hs : begins kind = true) :
    Headed begins (t :: ts) rest :=
  ⟨t, ts, rfl, ht ▸ hs, h⟩

theorem Headed.suffix (h : Headed begins ts rest) : rest <:+ ts := by
  obtain ⟨t, more, rfl, -, h⟩ := h
  exact h.trans (List.suffix_cons t more)

/-- A phrase with a first token is not empty. -/
theorem Headed.length_lt (h : Headed begins ts rest) : rest.length < ts.length := by
  obtain ⟨t, more, rfl, -, h⟩ := h
  exact Nat.lt_succ_of_le h.length_le

theorem Headed.trans (h : Headed begins ts ts') (h' : rest <:+ ts') : Headed begins ts rest := by
  obtain ⟨t, more, rfl, ht, h⟩ := h
  exact ⟨t, more, rfl, ht, h'.trans h⟩

theorem Headed.imp (h : Headed begins ts rest) (hs : ∀ kind, begins kind = true → begins' kind = true) :
    Headed begins' ts rest := by
  obtain ⟨t, more, rfl, ht, h⟩ := h
  exact ⟨t, more, rfl, hs _ ht, h⟩

/-- Some tokens do not come next. -/
theorem Headed.not_next (h : Headed begins ts rest) {kind : TokenKind} (hk : begins kind = false) : ¬ Next kind ts := by
  obtain ⟨t, more, rfl, ht, -⟩ := h
  rw [next_cons]
  rintro rfl
  cases ht.symm.trans hk

end

/-! ## Phrases -/

theorem suffix_of_cons {t : Token} {ts rest : List Token} (h : t :: rest <:+ ts) : rest <:+ ts :=
  (List.suffix_cons t rest).trans h

theorem beginsPrimary_expression (kind : TokenKind) (h : beginsPrimary kind = true) : beginsExpression kind = true := by
  simp [beginsExpression, h]

mutual

/-- Phrases start with a token that tells their sort. -/
theorem Expression.headed {ts rest : List Token} {e : Expr} :
    Expression ts e rest → Headed beginsExpression ts rest
  | .assign hn _ h => .cons hn (h.headed.suffix.trans (List.suffix_cons _ _)) rfl
  | .set h _ _ _ h' =>
    (h.headed.imp beginsPrimary_expression).trans
      (h'.headed.suffix.trans (suffix_of_cons (suffix_of_cons (List.suffix_cons _ _))))
  | .operation h => h.headed

theorem Operation.headed {ps : List Precedence} {ts rest : List Token} {e : Expr} :
    Operation ps ts e rest → Headed beginsExpression ts rest
  | .unary h => h.headed
  | .level h h' => h.headed.trans h'.suffix

theorem Operands.suffix {p : Precedence} {tighter : List Precedence} {left e : Expr} {ts rest : List Token} :
    Operands p tighter left ts e rest → rest <:+ ts
  | .done => List.suffix_rfl
  | .more _ h h' => (h'.suffix.trans h.headed.suffix).trans (List.suffix_cons _ _)

theorem Unary.headed {ts rest : List Token} {e : Expr} : Unary ts e rest → Headed beginsExpression ts rest
  | .not ht h => .cons ht h.headed.suffix rfl
  | .negate ht h => .cons ht h.headed.suffix rfl
  | .call h => h.headed.imp beginsPrimary_expression

theorem Call.headed {ts rest : List Token} {e : Expr} : Call ts e rest → Headed beginsPrimary ts rest
  | .mk h h' => h.headed.trans h'.suffix

theorem Accesses.suffix {first e : Expr} {ts rest : List Token} : Accesses first ts e rest → rest <:+ ts
  | .done => List.suffix_rfl
  | .call _ _ h => (h.suffix.trans (List.suffix_cons _ _)).trans (List.suffix_cons _ _)
  | .callWith _ ha _ h => (h.suffix.trans (suffix_of_cons ha.headed.suffix)).trans (List.suffix_cons _ _)
  | .get _ _ h => (h.suffix.trans (List.suffix_cons _ _)).trans (List.suffix_cons _ _)

theorem Arguments.headed {ts rest : List Token} {es : List Expr} :
    Arguments ts es rest → Headed beginsExpression ts rest
  | .one h => h.headed
  | .more h _ h' => h.headed.trans (h'.headed.suffix.trans (List.suffix_cons _ _))

theorem Primary.headed {ts rest : List Token} {e : Expr} : Primary ts e rest → Headed beginsPrimary ts rest
  | .number ht => .cons ht List.suffix_rfl rfl
  | .string ht => .cons ht List.suffix_rfl rfl
  | .var ht => .cons ht List.suffix_rfl rfl
  | .true ht => .cons ht List.suffix_rfl rfl
  | .false ht => .cons ht List.suffix_rfl rfl
  | .nil ht => .cons ht List.suffix_rfl rfl
  | .this ht => .cons ht List.suffix_rfl rfl
  | .super ht _ _ => .cons ht (suffix_of_cons (List.suffix_cons _ _)) rfl
  | .group ht h _ => .cons ht (suffix_of_cons h.headed.suffix) rfl

end

theorem Optional.suffix {α : Type} {Phrase : List Token → α → List Token → Prop} {ts rest : List Token} {o : Option α}
    (hp : ∀ {a}, Phrase ts a rest → rest <:+ ts) : Optional Phrase ts o rest → rest <:+ ts
  | .none => List.suffix_rfl
  | .some h => hp h

theorem Optional.expression_suffix {ts rest : List Token} {o : Option Expr} (h : Optional Expression ts o rest) :
    rest <:+ ts :=
  h.suffix fun h => h.headed.suffix

theorem VarDecl.headed {ts rest : List Token} {s : Stmt} : VarDecl ts s rest → Headed (· matches .var_) ts rest
  | .mk hk _ h _ => by
    have hs := h.suffix fun ⟨_, h⟩ => h.headed.suffix.trans (List.suffix_cons _ _)
    exact .cons hk (suffix_of_cons (hs.trans (List.suffix_cons _ _))) rfl

theorem ExpressionStmt.headed {ts rest : List Token} {s : Stmt} :
    ExpressionStmt ts s rest → Headed beginsExpression ts rest
  | .mk h _ => h.headed.trans (List.suffix_cons _ _)

theorem ForInitializer.suffix {ts rest : List Token} {o : Option Stmt} : ForInitializer ts o rest → rest <:+ ts
  | .var h => h.headed.suffix
  | .expression h => h.headed.suffix
  | .none _ => List.suffix_cons _ _

theorem Parameters.headed {ts rest : List Token} {names : List Name} :
    Parameters ts names rest → Headed (· matches .identifier) ts rest
  | .one ht => .cons ht List.suffix_rfl rfl
  | .more ht _ h => .cons ht (h.headed.suffix.trans (List.suffix_cons _ _)) rfl

mutual

theorem Statement.headed {nearest isOpen : Bool} {ts rest : List Token} {s : Stmt} :
    Statement nearest isOpen ts s rest → Headed beginsStatement ts rest
  | .expression h => h.headed.imp fun kind h => by simp [beginsStatement, h]
  | .forLoop hk _ h h₁ _ h₂ _ hb =>
    .cons hk (hb.headed.suffix.trans (suffix_of_cons (h₂.expression_suffix.trans
      (suffix_of_cons (h₁.expression_suffix.trans (h.suffix.trans (List.suffix_cons _ _))))))) rfl
  | .ifOnly hk _ h _ hb =>
    .cons hk (hb.headed.suffix.trans (suffix_of_cons (h.headed.suffix.trans (List.suffix_cons _ _)))) rfl
  | .ifElse hk _ h _ hb _ _ he =>
    .cons hk (he.headed.suffix.trans (suffix_of_cons (hb.headed.suffix.trans
      (suffix_of_cons (h.headed.suffix.trans (List.suffix_cons _ _)))))) rfl
  | .print hk h _ => .cons hk (suffix_of_cons h.headed.suffix) rfl
  | .ret hk h _ => .cons hk (suffix_of_cons h.expression_suffix) rfl
  | .whileLoop hk _ h _ hb =>
    .cons hk (hb.headed.suffix.trans (suffix_of_cons (h.headed.suffix.trans (List.suffix_cons _ _)))) rfl
  | .block hk h _ => .cons hk (suffix_of_cons h.suffix) rfl

theorem Declaration.headed {nearest isOpen : Bool} {ts rest : List Token} {s : Stmt} :
    Declaration nearest isOpen ts s rest → Headed beginsDeclaration ts rest
  | .classDecl hk _ h _ hm _ => by
    have hs := h.suffix fun ⟨_, .mk _⟩ => suffix_of_cons (List.suffix_cons _ _)
    exact .cons hk (suffix_of_cons (hm.suffix.trans (suffix_of_cons (hs.trans (List.suffix_cons _ _))))) rfl
  | .function hk h => .cons hk h.headed.suffix rfl
  | .var h => h.headed.imp fun kind h => by cases kind <;> first | rfl | cases h
  | .statement h => h.headed.imp fun kind h => by simp [beginsDeclaration, h]

theorem Declarations.suffix {nearest : Bool} {ts rest : List Token} {ss : List Stmt} :
    Declarations nearest ts ss rest → rest <:+ ts
  | .nil => List.suffix_rfl
  | .cons h h' => h'.suffix.trans h.headed.suffix

theorem Function.headed {nearest : Bool} {ts rest : List Token} {d : FunctionDecl} :
    Function nearest ts d rest → Headed (· matches .identifier) ts rest
  | .mk hn _ h _ _ hb _ =>
    .cons hn (suffix_of_cons (hb.suffix.trans (suffix_of_cons (suffix_of_cons
      ((h.suffix fun h => h.headed.suffix).trans (List.suffix_cons _ _)))))) rfl

theorem Methods.suffix {nearest : Bool} {ts rest : List Token} {ds : List FunctionDecl} :
    Methods nearest ts ds rest → rest <:+ ts
  | .nil => List.suffix_rfl
  | .cons h h' => h'.suffix.trans h.headed.suffix

end

/-- Where declarations end, and where they start, there is no `else`. -/
theorem Declarations.not_else {nearest : Bool} {ts rest : List Token} {ss : List Stmt}
    (h : Declarations nearest ts ss rest) (hr : ¬ Next .else_ rest) : ¬ Next .else_ ts := by
  cases h with
  | nil => exact hr
  | cons h _ => exact h.headed.not_next rfl

end Lox.Grammar
