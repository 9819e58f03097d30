/-
  Lox.Proofs.Grammar.Soundness — what is read without a report derives from the grammar
  (`program_derives`). Each parser is met with the rule it stands for; those for nested
  phrases are assumed to meet theirs, and `inner_derives` ties the knot by induction on the
  bound.
-/

import Lox.Proofs.Parser.Reads

namespace Lox.Parser

open Grammar

variable {α : Type} {s s' : ParserState} {i : Inner} {nearest : Bool}

/-- Whatever `p` reads without a report is a phrase, and nothing but the tokens changes. -/
def Derives (p : Parser α) (Phrase : List Token → α → List Token → Prop) : Prop :=
  ∀ {s : ParserState} {a : α} {s' : ParserState}, Reads p s a s' → ∃ rest, s' = s.at rest ∧ Phrase s.rest a rest

/-- A statement after which, if it is open, no `else` follows. -/
def Closed (nearest : Bool) (ts : List Token) (statement : Stmt) (rest : List Token) : Prop :=
  ∃ isOpen, Statement nearest isOpen ts statement rest ∧ (isOpen = true → ¬ Next .else_ rest)

/-- A declaration that was read, and not skipped. -/
def Declared (nearest : Bool) (ts : List Token) (o : Option Stmt) (rest : List Token) : Prop :=
  ∃ declared isOpen, o = some declared ∧ Declaration nearest isOpen ts declared rest

structure InnerDerives (nearest : Bool) (i : Inner) : Prop where
  expression : Derives i.expression Expression
  unary : Derives i.unary Unary
  statement : Derives i.statement (Closed nearest)
  declaration : Derives i.declaration (Declared nearest)

theorem unless?_derives {stop : TokenKind} {p : Parser α} {Phrase : List Token → α → List Token → Prop}
    (hp : Derives p Phrase) : Derives (unless? stop p) (Optional Phrase) := by
  intro s o s' h
  rcases reads_unless?.mp h with ⟨-, rfl, rfl⟩ | ⟨-, a, ha, rfl⟩
  · exact ⟨s'.rest, rfl, .none⟩
  · obtain ⟨rest, rfl, da⟩ := hp ha
    exact ⟨rest, rfl, .some da⟩

theorem after?_derives {kind : TokenKind} {p : Parser α} {Phrase : List Token → α → List Token → Prop}
    (hp : Derives p Phrase) : Derives (after? kind p) (Optional (After kind Phrase)) := by
  intro s o s' h
  rcases reads_after?.mp h with ⟨t, ts, a, hs, hk, ha, rfl⟩ | ⟨-, rfl, rfl⟩
  · obtain ⟨rest, rfl, da⟩ := hp ha
    exact ⟨rest, rfl, hs ▸ .some (.mk hk da)⟩
  · exact ⟨s'.rest, rfl, .none⟩

/-! ## Expressions -/

theorem operands_derives {operand : Parser Expr} {p : Precedence} {tighter : List Precedence}
    (hoperand : Derives operand (Operation tighter)) (n : Nat) (left : Expr) :
    Derives (operands operand p.level n left) (Operands p tighter left) := by
  induction n generalizing left with
  | zero => intro s e s' h; exact absurd h not_reads_exhausted
  | succ n ih =>
    intro s e s' h
    simp only [operands, reads_bind, reads_take?] at h
    obtain ⟨_, _, ⟨t, ts, apply, hs, ht, rfl, rfl⟩ | ⟨-, rfl, rfl⟩, h⟩ := h
    · simp only [reads_bind] at h
      obtain ⟨right, _, hright, h⟩ := h
      obtain ⟨ts', rfl, dright⟩ := hoperand hright
      obtain ⟨rest, rfl, d⟩ := ih _ h
      obtain ⟨combine, hc, rfl⟩ := Option.map_eq_some_iff.mp ht
      exact ⟨rest, rfl, hs ▸ .more (operator_iff.mpr hc) dright d⟩
    · obtain ⟨rfl, rfl⟩ := reads_pure.mp h
      exact ⟨s'.rest, rfl, .done⟩

/-- Levels of operators, from the loosest to the tightest. -/
theorem binary_derives {bound : Nat} {tightest : Parser Expr} (h : Derives tightest Unary) (ps : List Precedence) :
    Derives (binary bound tightest (ps.map Precedence.level)) (Operation ps) := by
  induction ps with
  | nil =>
    intro s e s' he
    obtain ⟨rest, rfl, de⟩ := h he
    exact ⟨rest, rfl, .unary de⟩
  | cons p tighter ih =>
    intro s e s' he
    simp only [List.map_cons, binary, reads_bind] at he
    obtain ⟨left, _, hleft, he⟩ := he
    obtain ⟨ts, rfl, dleft⟩ := ih hleft
    obtain ⟨rest, rfl, de⟩ := operands_derives ih _ _ he
    exact ⟨rest, rfl, .level dleft de⟩

theorem arguments_derives (hi : InnerDerives nearest i) (n count : Nat) : Derives (arguments i n count) Arguments := by
  induction n generalizing count with
  | zero => intro s es s' h; exact absurd h not_reads_exhausted
  | succ n ih =>
    intro s es s' h
    simp only [arguments, reads_bind, reads_limit, reads_accept] at h
    obtain ⟨_, _, ⟨-, rfl⟩, e, _, he, _, _, ⟨comma, ts, hs, hk, rfl, rfl⟩ | ⟨-, rfl, rfl⟩, h⟩ := h
    · obtain ⟨_, rfl, de⟩ := hi.expression he
      obtain rfl : _ = comma :: ts := hs
      simp only [if_true, reads_bind, reads_pure] at h
      obtain ⟨es, _, hes, rfl, rfl⟩ := h
      obtain ⟨rest, rfl, des⟩ := ih _ hes
      exact ⟨rest, rfl, .more de hk des⟩
    · obtain ⟨rfl, rfl⟩ := reads_pure.mp h
      obtain ⟨rest, rfl, de⟩ := hi.expression he
      exact ⟨rest, rfl, .one de⟩

theorem finishCall_derives (hi : InnerDerives nearest i) {callee call : Expr} (h : Reads (finishCall i callee) s call s') :
    ∃ arguments closing rest, s' = s.at rest ∧ call = .call callee arguments closing.line ∧ closing.kind = .rightParen ∧
      ((arguments = [] ∧ s.rest = closing :: rest) ∨ Arguments s.rest arguments (closing :: rest)) := by
  simp only [finishCall, reads_bind, reads_listed, reads_expect, reads_pure] at h
  obtain ⟨_, _, ⟨-, rfl, rfl⟩ | ⟨-, hargs⟩, closing, _, ⟨rest, hs, hk, rfl⟩, rfl, rfl⟩ := h
  · exact ⟨[], closing, rest, rfl, rfl, hk, .inl ⟨rfl, hs⟩⟩
  · obtain ⟨_, rfl, dargs⟩ := arguments_derives hi _ _ hargs
    obtain rfl : _ = closing :: rest := hs
    exact ⟨_, closing, rest, rfl, rfl, hk, .inr dargs⟩

/-- Calls and properties, as many as follow. -/
theorem accesses_derives (hi : InnerDerives nearest i) (n : Nat) (first : Expr) :
    Derives (accesses i n first) (Accesses first) := by
  induction n generalizing first with
  | zero => intro s e s' h; exact absurd h not_reads_exhausted
  | succ n ih =>
    intro s e s' h
    simp only [accesses, reads_bind, reads_accept] at h
    obtain ⟨_, _, ⟨opening, ts, hs, hopening, rfl, rfl⟩ | ⟨-, rfl, rfl⟩, h⟩ := h
    · simp only [if_true, reads_bind] at h
      obtain ⟨_, _, hcall, h⟩ := h
      obtain ⟨args, closing, ts', rfl, rfl, hclosing, hargs⟩ := finishCall_derives hi hcall
      obtain ⟨rest, rfl, d⟩ := ih _ h
      rcases hargs with ⟨rfl, hs'⟩ | hargs
      · obtain rfl : ts = closing :: ts' := hs'
        exact ⟨rest, rfl, hs ▸ .call hopening hclosing d⟩
      · exact ⟨rest, rfl, hs ▸ .callWith hopening hargs hclosing d⟩
    · simp only [Bool.false_eq_true, if_false, reads_bind, reads_accept] at h
      obtain ⟨_, _, ⟨dot, ts, hs, hdot, rfl, rfl⟩ | ⟨-, rfl, rfl⟩, h⟩ := h
      · simp only [if_true, reads_bind, reads_expectName] at h
        obtain ⟨_, _, ⟨name, ts', hs', hname, rfl, rfl⟩, h⟩ := h
        obtain rfl : ts = name :: ts' := hs'
        obtain ⟨rest, rfl, d⟩ := ih _ h
        exact ⟨rest, rfl, hs ▸ .get hdot hname d⟩
      · obtain ⟨rfl, rfl⟩ := reads_pure.mp h
        exact ⟨s'.rest, rfl, .done⟩

theorem thisWord_derives {t : Token} (ht : t.kind = .this_) {e : Expr} (h : Reads (thisWord t) s e s') :
    ∃ rest, s' = s.at rest ∧ Primary (t :: s.rest) e rest := by
  simp only [thisWord, checkThis, reads_bind, reads_context, reads_pure] at h
  obtain ⟨_, _, ⟨_, _, ⟨rfl, rfl⟩, h⟩, rfl, rfl⟩ := h
  split at h
  · exact absurd h not_reads_reportAt
  · obtain ⟨-, rfl⟩ := reads_pure.mp h
    exact ⟨s'.rest, rfl, .this ht⟩

theorem superMethod_derives {t : Token} (ht : t.kind = .super_) {e : Expr} (h : Reads (superMethod t) s e s') :
    ∃ rest, s' = s.at rest ∧ Primary (t :: s.rest) e rest := by
  simp only [superMethod, checkSuper, reads_bind, reads_context, reads_expect, reads_expectName, reads_pure] at h
  obtain ⟨_, _, ⟨_, _, ⟨rfl, rfl⟩, h⟩, dot, _, ⟨ts, hs, hdot, rfl⟩, _, _, ⟨method, rest, hs', hm, rfl, rfl⟩, rfl, rfl⟩ := h
  obtain rfl : ts = method :: rest := hs'
  split at h
  · exact absurd h not_reads_reportAt
  · exact absurd h not_reads_reportAt
  · obtain ⟨-, rfl⟩ := reads_pure.mp h
    exact ⟨rest, rfl, hs ▸ .super ht hdot hm⟩

theorem group_derives (hi : InnerDerives nearest i) {t : Token} (ht : t.kind = .leftParen) {e : Expr}
    (h : Reads (group i) s e s') : ∃ rest, s' = s.at rest ∧ Primary (t :: s.rest) e rest := by
  simp only [group, reads_bind, reads_expect, reads_pure] at h
  obtain ⟨_, _, he, closing, _, ⟨rest, hs, hk, rfl⟩, rfl, rfl⟩ := h
  obtain ⟨_, rfl, de⟩ := hi.expression he
  obtain rfl : _ = closing :: rest := hs
  exact ⟨rest, rfl, .group ht de hk⟩

theorem primaryFrom_derives (hi : InnerDerives nearest i) {t : Token} {p : Parser Expr} (ht : primaryFrom i t = some p)
    {e : Expr} (h : Reads p s e s') : ∃ rest, s' = s.at rest ∧ Primary (t :: s.rest) e rest := by
  have word {e' : Expr} (hp : Primary (t :: s.rest) e' s.rest) (h : Reads (pure e') s e s') :
      ∃ rest, s' = s.at rest ∧ Primary (t :: s.rest) e rest := by
    obtain ⟨rfl, rfl⟩ := reads_pure.mp h
    exact ⟨s'.rest, rfl, hp⟩
  unfold primaryFrom at ht
  split at ht <;> rename_i hk <;> cases ht
  · exact word (.false hk) h
  · exact word (.true hk) h
  · exact word (.nil hk) h
  · exact word (.number hk) h
  · exact word (.string hk) h
  · exact superMethod_derives hk h
  · exact thisWord_derives hk h
  · exact word (.var hk) h
  · exact group_derives hi hk h

theorem call_derives (hi : InnerDerives nearest i) : Derives (call i) Call := by
  intro s e s' h
  simp only [call, primary, reads_bind, reads_take?] at h
  obtain ⟨first, _, ⟨_, _, ⟨t, ts, p, hs, hp, rfl, rfl⟩ | ⟨-, rfl, rfl⟩, hfirst⟩, h⟩ := h
  · obtain ⟨_, rfl, dfirst⟩ := primaryFrom_derives hi hp hfirst
    obtain ⟨rest, rfl, d⟩ := accesses_derives hi _ _ h
    exact ⟨rest, rfl, hs ▸ .mk dfirst d⟩
  · exact absurd hfirst not_reads_reject

theorem unary_derives (hi : InnerDerives nearest i) : Derives (unary i) Unary := by
  intro s e s' h
  simp only [unary, reads_bind, reads_take?] at h
  obtain ⟨_, _, ⟨t, ts, apply, hs, ht, rfl, rfl⟩ | ⟨-, rfl, rfl⟩, h⟩ := h
  · simp only [reads_bind, reads_pure] at h
    obtain ⟨_, _, h, rfl, rfl⟩ := h
    obtain ⟨rest, rfl, d⟩ := hi.unary h
    obtain ⟨op, hop, rfl⟩ := Option.map_eq_some_iff.mp ht
    refine ⟨rest, rfl, hs ▸ ?_⟩
    unfold unaryOp? at hop
    split at hop <;> rename_i hk <;> cases hop
    · exact .not hk d
    · exact .negate hk d
  · obtain ⟨rest, rfl, d⟩ := call_derives hi h
    exact ⟨rest, rfl, .call d⟩

/-! ## Assignment

The parser reads the left side as an expression and then looks what it has got. -/

/-- An operator makes nothing that can be assigned to. -/
theorem assignTo?_operator {p : Precedence} {kind : TokenKind} {combine : Nat → Expr → Expr → Expr}
    (h : Operator p kind combine) (value left right : Expr) (line : Nat) :
    assignTo? value (combine line left right) = none := by
  cases h <;> rfl

mutual

theorem assignTo?_operands {p : Precedence} {tighter : List Precedence} {left value e : Expr} {ts rest : List Token} :
    Operands p tighter left ts e rest → (e = left ∧ ts = rest) ∨ assignTo? value e = none
  | .done => .inl ⟨rfl, rfl⟩
  | .more hop _ h => by
    rcases assignTo?_operands h with ⟨rfl, -⟩ | h
    · exact .inr (assignTo?_operator hop _ _ _ _)
    · exact .inr h

/-- What is accessed last is called, or its property is read. -/
theorem accesses_last {first e : Expr} {ts rest : List Token} :
    Accesses first ts e rest →
      (e = first ∧ ts = rest) ∨ (∃ callee arguments line, e = .call callee arguments line) ∨
        ∃ object dot name, e = .get object (nameOf name) ∧ dot.kind = .dot ∧ name.kind = .identifier ∧
          Accesses first ts object (dot :: name :: rest)
  | .done => .inl ⟨rfl, rfl⟩
  | .call ho hc h => by
    rcases accesses_last h with ⟨rfl, -⟩ | h | ⟨object, dot, name, he, hd, hn, h⟩
    · exact .inr (.inl ⟨_, _, _, rfl⟩)
    · exact .inr (.inl h)
    · exact .inr (.inr ⟨object, dot, name, he, hd, hn, .call ho hc h⟩)
  | .callWith ho ha hc h => by
    rcases accesses_last h with ⟨rfl, -⟩ | h | ⟨object, dot, name, he, hd, hn, h⟩
    · exact .inr (.inl ⟨_, _, _, rfl⟩)
    · exact .inr (.inl h)
    · exact .inr (.inr ⟨object, dot, name, he, hd, hn, .callWith ho ha hc h⟩)
  | .get hd hn h => by
    rcases accesses_last h with ⟨rfl, rfl⟩ | h | ⟨object, dot, name, he, hd', hn', h⟩
    · exact .inr (.inr ⟨_, _, _, rfl, hd, hn, .done⟩)
    · exact .inr (.inl h)
    · exact .inr (.inr ⟨object, dot, name, he, hd', hn', .get hd hn h⟩)

end

/-- Assignment to a phrase made of operators: it must be a name or a property. -/
theorem assignTo?_derives {ps : List Precedence} {ts ts' rest : List Token} {equal : Token} {left value e : Expr}
    (h : Operation ps ts left (equal :: ts')) (hequal : equal.kind = .equal) (hv : Expression ts' value rest)
    (ha : assignTo? value left = some e) : Expression ts e rest := by
  induction ps with
  | nil =>
    obtain ⟨h⟩ := h
    cases h with
    | not => cases ha
    | negate => cases ha
    | call h =>
      obtain ⟨hfirst, h⟩ := h
      rcases accesses_last h with ⟨rfl, rfl⟩ | ⟨_, _, _, rfl⟩ | ⟨object, dot, name, rfl, hd, hn, h⟩
      · cases hfirst <;> cases ha
        rename_i hk
        exact .assign hk hequal hv
      · cases ha
      · cases ha
        exact .set (.mk hfirst h) hd hn hequal hv
  | cons p tighter ih =>
    cases h with
    | level hleft hright =>
      rcases assignTo?_operands hright with ⟨rfl, rfl⟩ | hnone
      · exact ih hleft
      · cases ha.symm.trans hnone

/-- What is read as an operation and turns out to be assigned to was a name or a property. -/
theorem expression_derives (hi : InnerDerives nearest i) : Derives (expression i) Expression := by
  intro s e s' h
  simp only [expression, levels_eq, reads_bind, reads_accept?] at h
  obtain ⟨left, _, hleft, _, _, ⟨equal, ts, hs, hk, rfl, rfl⟩ | ⟨-, rfl, rfl⟩, h⟩ := h
  · obtain ⟨_, rfl, dleft⟩ := binary_derives (unary_derives hi) _ hleft
    obtain rfl : _ = equal :: ts := hs
    simp only [reads_bind] at h
    obtain ⟨value, _, hvalue, h⟩ := h
    obtain ⟨rest, rfl, dvalue⟩ := hi.expression hvalue
    split at h
    · rename_i e' ha
      obtain ⟨rfl, rfl⟩ := reads_pure.mp h
      exact ⟨rest, rfl, assignTo?_derives dleft hk dvalue ha⟩
    · obtain ⟨_, _, hreport, -⟩ := reads_bind.mp h
      exact absurd hreport not_reads_reportAt
  · obtain ⟨rfl, rfl⟩ := reads_pure.mp h
    obtain ⟨rest, rfl, dleft⟩ := binary_derives (unary_derives hi) _ hleft
    exact ⟨rest, rfl, .operation dleft⟩

/-! ## Statements -/

theorem varDecl_derives (hi : InnerDerives nearest i) {keyword : Token} (hk : keyword.kind = .var_) {d : Stmt}
    (h : Reads (varDecl i) s d s') : ∃ rest, s' = s.at rest ∧ VarDecl (keyword :: s.rest) d rest := by
  simp only [varDecl, reads_bind, reads_expectName, reads_expect, reads_pure] at h
  obtain ⟨_, _, ⟨name, ts, hs, hn, rfl, rfl⟩, init, _, hinit, semicolon, _, ⟨rest, hs', hsemi, rfl⟩, rfl, rfl⟩ := h
  obtain ⟨_, rfl, dinit⟩ := after?_derives (expression_derives hi) hinit
  obtain rfl : _ = semicolon :: rest := hs'
  exact ⟨rest, rfl, hs ▸ .mk hk hn dinit hsemi⟩

theorem expressionStmt_derives (hi : InnerDerives nearest i) : Derives (expressionStmt i) ExpressionStmt := by
  intro s st s' h
  simp only [expressionStmt, reads_bind, reads_expect, reads_pure] at h
  obtain ⟨_, _, he, semicolon, _, ⟨rest, hs, hsemi, rfl⟩, rfl, rfl⟩ := h
  obtain ⟨_, rfl, de⟩ := expression_derives hi he
  obtain rfl : _ = semicolon :: rest := hs
  exact ⟨rest, rfl, .mk de hsemi⟩

theorem forInitializer_derives (hi : InnerDerives nearest i) : Derives (forInitializer i) ForInitializer := by
  intro s o s' h
  simp only [forInitializer, reads_bind, reads_accept] at h
  obtain ⟨_, _, ⟨semicolon, ts, hs, hk, rfl, rfl⟩ | ⟨-, rfl, rfl⟩, h⟩ := h
  · obtain ⟨rfl, rfl⟩ := reads_pure.mp h
    exact ⟨ts, rfl, hs ▸ .none hk⟩
  · simp only [Bool.false_eq_true, if_false, reads_bind, reads_accept] at h
    obtain ⟨_, _, ⟨keyword, ts, hs, hk, rfl, rfl⟩ | ⟨-, rfl, rfl⟩, h⟩ := h
    · obtain ⟨_, hvar, rfl⟩ := reads_map.mp h
      obtain ⟨rest, rfl, d⟩ := varDecl_derives hi hk hvar
      exact ⟨rest, rfl, hs ▸ .var d⟩
    · obtain ⟨_, hst, rfl⟩ := reads_map.mp h
      obtain ⟨rest, rfl, d⟩ := expressionStmt_derives hi hst
      exact ⟨rest, rfl, .expression d⟩

theorem forStmt_derives (hi : InnerDerives nearest i) {keyword : Token} (hk : keyword.kind = .for_) {st : Stmt}
    (h : Reads (forStmt i) s st s') : ∃ rest, s' = s.at rest ∧ Closed nearest (keyword :: s.rest) st rest := by
  simp only [forStmt, reads_bind, reads_expect, reads_pure] at h
  obtain ⟨opening, _, ⟨ts, hs, ho, rfl⟩, init, _, hinit, cond, _, hcond, semicolon, _, ⟨ts₂, hs₂, hsemi, rfl⟩,
    inc, _, hinc, closing, _, ⟨ts₃, hs₃, hc, rfl⟩, body, _, hbody, rfl, rfl⟩ := h
  obtain ⟨ts₁, rfl, dinit⟩ := forInitializer_derives hi hinit
  obtain ⟨_, rfl, dcond⟩ := unless?_derives (expression_derives hi) hcond
  obtain rfl : _ = semicolon :: ts₂ := hs₂
  obtain ⟨_, rfl, dinc⟩ := unless?_derives (expression_derives hi) hinc
  obtain rfl : _ = closing :: ts₃ := hs₃
  obtain ⟨rest, rfl, isOpen, dbody, hopen⟩ := hi.statement hbody
  exact ⟨rest, rfl, isOpen, hs ▸ .forLoop hk ho dinit dcond hsemi dinc hc dbody, hopen⟩

/-- An `else` that follows goes to the `if` at hand, which is the nearest. -/
theorem ifStmt_derives (hi : InnerDerives nearest i) {keyword : Token} (hk : keyword.kind = .if_) {st : Stmt}
    (h : Reads (ifStmt i) s st s') : ∃ rest, s' = s.at rest ∧ Closed nearest (keyword :: s.rest) st rest := by
  simp only [ifStmt, reads_bind, reads_expect, reads_after?, reads_pure] at h
  obtain ⟨opening, _, ⟨ts, hs, ho, rfl⟩, cond, _, hcond, closing, _, ⟨ts₁, hs₁, hc, rfl⟩, body, _, hbody,
    _, _, ⟨keyword', ts₂, elseBranch, hs₂, hk', helse, rfl⟩ | ⟨hnext, rfl, rfl⟩, rfl, rfl⟩ := h
  all_goals
    obtain ⟨_, rfl, dcond⟩ := expression_derives hi hcond
    obtain rfl : _ = closing :: ts₁ := hs₁
    obtain ⟨rest, rfl, bodyOpen, dbody, hbodyOpen⟩ := hi.statement hbody
  · obtain rfl : rest = keyword' :: ts₂ := hs₂
    obtain ⟨rest, rfl, isOpen, delse, hopen⟩ := hi.statement helse
    -- An `else` follows the branch, so it is not open.
    have hclosed : bodyOpen = false := Bool.eq_false_iff.mpr fun h => hbodyOpen h (next_cons.mpr hk')
    exact ⟨rest, rfl, isOpen, hs ▸ .ifElse hk ho dcond hc dbody (fun _ => hclosed) hk' delse, hopen⟩
  · exact ⟨rest, rfl, true, hs ▸ .ifOnly hk ho dcond hc dbody, fun _ => hnext⟩

theorem whileStmt_derives (hi : InnerDerives nearest i) {keyword : Token} (hk : keyword.kind = .while_) {st : Stmt}
    (h : Reads (whileStmt i) s st s') : ∃ rest, s' = s.at rest ∧ Closed nearest (keyword :: s.rest) st rest := by
  simp only [whileStmt, reads_bind, reads_expect, reads_pure] at h
  obtain ⟨opening, _, ⟨ts, hs, ho, rfl⟩, cond, _, hcond, closing, _, ⟨ts₁, hs₁, hc, rfl⟩, body, _, hbody, rfl, rfl⟩ := h
  obtain ⟨_, rfl, dcond⟩ := expression_derives hi hcond
  obtain rfl : _ = closing :: ts₁ := hs₁
  obtain ⟨rest, rfl, isOpen, dbody, hopen⟩ := hi.statement hbody
  exact ⟨rest, rfl, isOpen, hs ▸ .whileLoop hk ho dcond hc dbody, hopen⟩

theorem printStmt_derives (hi : InnerDerives nearest i) {keyword : Token} (hk : keyword.kind = .print_) {st : Stmt}
    (h : Reads (printStmt i) s st s') : ∃ rest, s' = s.at rest ∧ Closed nearest (keyword :: s.rest) st rest := by
  simp only [printStmt, reads_bind, reads_expect, reads_pure] at h
  obtain ⟨_, _, he, semicolon, _, ⟨rest, hs, hsemi, rfl⟩, rfl, rfl⟩ := h
  obtain ⟨_, rfl, de⟩ := expression_derives hi he
  obtain rfl : _ = semicolon :: rest := hs
  exact ⟨rest, rfl, false, .print hk de hsemi, fun h => absurd h Bool.false_ne_true⟩

theorem returnStmt_derives (hi : InnerDerives nearest i) {keyword : Token} (hk : keyword.kind = .return_) {st : Stmt}
    (h : Reads (returnStmt i keyword) s st s') : ∃ rest, s' = s.at rest ∧ Closed nearest (keyword :: s.rest) st rest := by
  simp only [returnStmt, checkReturn, reads_bind, reads_context, reads_expect, reads_pure] at h
  obtain ⟨_, _, ⟨_, _, ⟨rfl, rfl⟩, h⟩, value, _, hvalue, semicolon, _, ⟨rest, hs, hsemi, rfl⟩, rfl, rfl⟩ := h
  split at h
  · exact absurd h not_reads_reportAt
  · obtain ⟨-, rfl⟩ := reads_pure.mp h
    obtain ⟨_, rfl, dvalue⟩ := unless?_derives (expression_derives hi) hvalue
    obtain rfl : _ = semicolon :: rest := hs
    exact ⟨rest, rfl, false, .ret hk dvalue hsemi, fun h => absurd h Bool.false_ne_true⟩

theorem declarations_derives (hi : InnerDerives nearest i) (n : Nat) : Derives (declarations i n) (Declarations nearest) := by
  induction n with
  | zero => intro s ss s' h; exact absurd h not_reads_exhausted
  | succ n ih =>
    intro s ss s' h
    simp only [declarations, reads_bind, reads_atBodyEnd] at h
    obtain ⟨b, _, ⟨-, rfl⟩, h⟩ := h
    cases b with
    | true =>
      obtain ⟨rfl, rfl⟩ := reads_pure.mp h
      exact ⟨s'.rest, rfl, .nil⟩
    | false =>
      simp only [Bool.false_eq_true, if_false, reads_bind, reads_pure] at h
      obtain ⟨_, _, hfirst, _, _, hmore, rfl, rfl⟩ := h
      obtain ⟨_, rfl, first, isOpen, rfl, dfirst⟩ := hi.declaration hfirst
      obtain ⟨rest, rfl, dmore⟩ := ih hmore
      exact ⟨rest, rfl, .cons dfirst dmore⟩

theorem block_derives (hi : InnerDerives nearest i) {body : List Stmt} (h : Reads (block i) s body s') :
    ∃ closing rest, s' = s.at rest ∧ closing.kind = .rightBrace ∧ Declarations nearest s.rest body (closing :: rest) := by
  simp only [block, reads_bind, reads_expect, reads_pure] at h
  obtain ⟨_, _, hbody, closing, _, ⟨rest, hs, hk, rfl⟩, rfl, rfl⟩ := h
  obtain ⟨_, rfl, dbody⟩ := declarations_derives hi _ hbody
  obtain rfl : _ = closing :: rest := hs
  exact ⟨closing, rest, rfl, hk, dbody⟩

theorem statement_derives (hi : InnerDerives nearest i) : Derives (statement i) (Closed nearest) := by
  intro s st s' h
  simp only [statement, reads_bind, reads_take?] at h
  obtain ⟨_, _, ⟨t, ts, p, hs, hp, rfl, rfl⟩ | ⟨-, rfl, rfl⟩, h⟩ := h
  · rw [hs]
    unfold statementFrom at hp
    split at hp <;> rename_i hk <;> cases hp
    · exact forStmt_derives hi hk h
    · exact ifStmt_derives hi hk h
    · exact printStmt_derives hi hk h
    · exact returnStmt_derives hi hk h
    · exact whileStmt_derives hi hk h
    · obtain ⟨body, hbody, rfl⟩ := reads_map.mp h
      obtain ⟨closing, rest, rfl, hclosing, d⟩ := block_derives hi hbody
      exact ⟨rest, rfl, false, .block hk d hclosing, fun h => absurd h Bool.false_ne_true⟩
  · obtain ⟨rest, rfl, d⟩ := expressionStmt_derives hi h
    exact ⟨rest, rfl, false, .expression d, fun h => absurd h Bool.false_ne_true⟩

/-! ## Declarations -/

theorem parameters_derives (n count : Nat) : Derives (parameters n count) Parameters := by
  induction n generalizing count with
  | zero => intro s names s' h; exact absurd h not_reads_exhausted
  | succ n ih =>
    intro s names s' h
    simp only [parameters, reads_bind, reads_limit, reads_expectName, reads_accept] at h
    obtain ⟨_, _, ⟨-, rfl⟩, _, _, ⟨t, ts, hs, hk, rfl, rfl⟩, _, _, ⟨comma, ts', hs', hc, rfl, rfl⟩ | ⟨-, rfl, rfl⟩, h⟩ := h
    · obtain rfl : ts = comma :: ts' := hs'
      simp only [if_true, reads_bind, reads_pure] at h
      obtain ⟨_, _, h, rfl, rfl⟩ := h
      obtain ⟨rest, rfl, d⟩ := ih _ h
      exact ⟨rest, rfl, hs ▸ .more hk hc d⟩
    · obtain ⟨rfl, rfl⟩ := reads_pure.mp h
      exact ⟨ts, rfl, hs ▸ .one hk⟩

theorem listed_parameters_derives {n : Nat} {names : List Name} (h : Reads (listed (parameters n 0)) s names s') :
    ∃ params rest, s' = s.at rest ∧ names = params.getD [] ∧ Optional Parameters s.rest params rest := by
  rcases reads_listed.mp h with ⟨-, rfl, rfl⟩ | ⟨-, h⟩
  · exact ⟨none, s'.rest, rfl, rfl, .none⟩
  · obtain ⟨rest, rfl, d⟩ := parameters_derives _ _ h
    exact ⟨some names, rest, rfl, rfl, .some d⟩

theorem function_derives (hi : InnerDerives nearest i) (kind : FunctionKind) : Derives (function i kind) (Function nearest) := by
  intro s d s' h
  simp only [function, inFunction, reads_bind, reads_expectName, reads_bracketed, reads_expect, reads_pure] at h
  obtain ⟨_, _, ⟨name, ts, hs, hn, rfl, rfl⟩, _, ⟨opening, _, ⟨ts₁, hs₁, ho, rfl⟩, _, _, hparams,
    closing, _, ⟨ts₂, hs₂, hc, rfl⟩, brace, _, ⟨ts₃, hs₃, hb, rfl⟩, body, _, hbody, rfl, rfl⟩, rfl⟩ := h
  obtain ⟨params, _, rfl, rfl, dparams⟩ := listed_parameters_derives hparams
  obtain ⟨brace', rest, rfl, hb', dbody⟩ := block_derives hi hbody
  obtain rfl : _ = closing :: ts₂ := hs₂
  obtain rfl : ts₂ = brace :: ts₃ := hs₃
  obtain rfl : ts = opening :: ts₁ := hs₁
  exact ⟨rest, rfl, hs ▸ .mk hn ho dparams hc hb dbody hb'⟩

theorem methods_derives (hi : InnerDerives nearest i) (n : Nat) : Derives (methods i n) (Methods nearest) := by
  induction n with
  | zero => intro s ds s' h; exact absurd h not_reads_exhausted
  | succ n ih =>
    intro s ds s' h
    simp only [methods, reads_bind, reads_atBodyEnd] at h
    obtain ⟨b, _, ⟨-, rfl⟩, h⟩ := h
    cases b with
    | true =>
      obtain ⟨rfl, rfl⟩ := reads_pure.mp h
      exact ⟨s'.rest, rfl, .nil⟩
    | false =>
      simp only [Bool.false_eq_true, if_false, reads_bind, reads_pure] at h
      obtain ⟨_, _, hfirst, _, _, hmore, rfl, rfl⟩ := h
      obtain ⟨_, rfl, dfirst⟩ := function_derives hi _ hfirst
      obtain ⟨rest, rfl, dmore⟩ := ih hmore
      exact ⟨rest, rfl, .cons dfirst dmore⟩

theorem parentName_derives (name : Name) : Derives (parentName name) Identifier := by
  intro s parent s' h
  simp only [parentName, checkParent, reads_bind, reads_expect, reads_pure] at h
  obtain ⟨t, _, ⟨rest, hs, hk, rfl⟩, _, _, h, rfl, rfl⟩ := h
  split at h
  · exact absurd h not_reads_reportAt
  · obtain ⟨-, rfl⟩ := reads_pure.mp h
    exact ⟨rest, rfl, hs ▸ .mk hk⟩

theorem classDecl_derives (hi : InnerDerives nearest i) {keyword : Token} (hk : keyword.kind = .class_) {d : Stmt}
    (h : Reads (classDecl i) s d s') :
    ∃ rest, s' = s.at rest ∧ Declaration nearest false (keyword :: s.rest) d rest := by
  simp only [classDecl, inClass, reads_bind, reads_expectName, reads_context, reads_bracketed, reads_expect,
    reads_pure] at h
  obtain ⟨_, _, ⟨name, ts, hs, hn, rfl, rfl⟩, parent, _, hparent, _, _, ⟨rfl, rfl⟩, _, ⟨opening, _, ⟨ts₁, hs₁, ho, rfl⟩,
    members, _, hmembers, closing, _, ⟨rest, hs₂, hc, rfl⟩, rfl, rfl⟩, rfl⟩ := h
  obtain ⟨_, rfl, dparent⟩ := after?_derives (parentName_derives _) hparent
  obtain ⟨_, rfl, dmembers⟩ := methods_derives hi _ hmembers
  obtain rfl : _ = opening :: ts₁ := hs₁
  obtain rfl : _ = closing :: rest := hs₂
  exact ⟨rest, rfl, hs ▸ .classDecl hk hn dparent ho dmembers hc⟩

theorem declaration_derives (hi : InnerDerives nearest i) : Derives (declaration i) (Declared nearest) := by
  intro s o s' h
  obtain ⟨d, hd, rfl⟩ := reads_recovering.mp h
  simp only [plainDeclaration, reads_bind, reads_take?] at hd
  obtain ⟨_, _, ⟨t, ts, p, hs, hp, rfl, rfl⟩ | ⟨-, rfl, rfl⟩, hd⟩ := hd
  · rw [hs]
    unfold declarationFrom at hp
    split at hp <;> rename_i hk <;> cases hp
    · obtain ⟨rest, rfl, dd⟩ := classDecl_derives hi hk hd
      exact ⟨rest, rfl, d, false, rfl, dd⟩
    · obtain ⟨_, hf, rfl⟩ := reads_map.mp hd
      obtain ⟨rest, rfl, df⟩ := function_derives hi _ hf
      exact ⟨rest, rfl, _, false, rfl, .function hk df⟩
    · obtain ⟨rest, rfl, dd⟩ := varDecl_derives hi hk hd
      exact ⟨rest, rfl, d, false, rfl, .var dd⟩
  · obtain ⟨rest, rfl, isOpen, dd, -⟩ := statement_derives hi hd
    exact ⟨rest, rfl, d, isOpen, rfl, .statement dd⟩

/-! ## Programs -/

/-- However deep they nest, the phrases inside are derived. -/
theorem inner_derives (n : Nat) : InnerDerives nearest (inner n) := by
  induction n with
  | zero => constructor <;> (intro s a s' h; exact absurd h not_reads_exhausted)
  | succ n ih => exact ⟨expression_derives ih, unary_derives ih, statement_derives ih, declaration_derives ih⟩

/-- A whole program that is read without a report derives from the grammar. -/
theorem program_derives (m n : Nat) {statements : List Stmt} (h : Reads (program (inner m) n) s statements s') :
    Program nearest s.rest statements := by
  induction n generalizing s statements with
  | zero => exact absurd h not_reads_exhausted
  | succ n ih =>
    simp only [program, reads_bind, reads_atEnd] at h
    obtain ⟨_, _, ⟨rfl, rfl⟩, h⟩ := h
    split at h
    · rename_i hend
      obtain ⟨rfl, rfl⟩ := reads_pure.mp h
      rw [Program, List.isEmpty_iff.mp hend]
      exact .nil
    · simp only [reads_bind, reads_pure] at h
      obtain ⟨_, _, hfirst, _, _, hmore, rfl, rfl⟩ := h
      obtain ⟨_, rfl, first, isOpen, rfl, dfirst⟩ := declaration_derives (inner_derives m) hfirst
      exact .cons dfirst (ih hmore)

end Lox.Parser
