/-
  Lox.Proofs.Parser.Renamed — parsing tokens under other names. `Echoes ρ g p q` says that on
  the renamed tokens `q` does what `p` does on the old: it reads the image of what `p` reads
  or rejects with it, moves equally far, and reports the same under the new names. A parser
  looks at a name in two places only: a method is told by its name to be an initializer, and
  a class may not name itself as its superclass. Both ask whether two names are equal.
-/

import Lox.Proofs.Parser.Parallel
import Lox.Proofs.Renaming

namespace Lox

variable (ρ : Renaming)

/-- Only identifiers among the tokens have a new name. -/
def KeptTokens (ts : List Token) : Prop := ∀ t ∈ ts, t.kind ≠ .identifier → ρ.apply t.lexeme = t.lexeme

theorem KeptTokens.suffix {ρ : Renaming} {ts rest : List Token} (h : KeptTokens ρ ts) (hs : rest <:+ ts) : KeptTokens ρ rest :=
  fun t ht => h t (hs.subset ht)

def ParserState.rename (s : ParserState) : ParserState := { s with rest := s.rest.map (Token.rename ρ) }

@[simp] theorem ParserState.rename_rest (s : ParserState) : (s.rename ρ).rest = s.rest.map (Token.rename ρ) := rfl
@[simp] theorem ParserState.rename_context (s : ParserState) : (s.rename ρ).context = s.context := rfl

namespace Parser

variable {α β γ δ : Type}

/-- Outcomes of two parsers, the second of which has read renamed tokens. -/
inductive Echo (g : α → β) : ParserOutcome α → ParserOutcome β → Prop
  | read {a : α} {b : β} {s : ParserState} {reports : List Report} : KeptTokens ρ s.rest → b = g a →
      Echo g (.read a s reports) (.read b (s.rename ρ) (reports.map (Report.rename ρ)))
  | rejected {s : ParserState} {earlier : List Report} {reason : Report} : KeptTokens ρ s.rest →
      Echo g (.rejected s earlier reason)
        (.rejected (s.rename ρ) (earlier.map (Report.rename ρ)) (reason.rename ρ))
  | exhausted : Echo g .exhausted .exhausted

def Echoes (g : α → β) (p : Parser α) (q : Parser β) : Prop :=
  ∀ s : ParserState, KeptTokens ρ s.rest → Echo ρ g (p s) (q (s.rename ρ))

variable {ρ}

/-! ## Composition -/

section

variable {g : α → β} {k : γ → δ} {p : Parser α} {q : Parser β}

theorem Echoes.pure {a : α} {b : β} (h : b = g a) : Echoes ρ g (pure a : Parser α) (pure b : Parser β) :=
  fun _ hs => .read hs h

theorem Echoes.exhausted : Echoes ρ g exhausted exhausted := fun _ _ => .exhausted

theorem Echo.after {out : ParserOutcome α} {out' : ParserOutcome β} (h : Echo ρ g out out') (reports : List Report) :
    Echo ρ g (out.after reports) (out'.after (reports.map (Report.rename ρ))) := by
  cases h with
  | read hs hb =>
    simp only [ParserOutcome.after, ← List.map_append]
    exact .read hs hb
  | rejected hs =>
    simp only [ParserOutcome.after, ← List.map_append]
    exact .rejected hs
  | exhausted => exact .exhausted

theorem Echoes.bind {u : α → Parser γ} {v : β → Parser δ} (hp : Echoes ρ g p q)
    (hu : ∀ a, Echoes ρ k (u a) (v (g a))) : Echoes ρ k (p >>= u) (q >>= v) := by
  intro s hs
  have hecho := hp s hs
  rw [bind_run, bind_run]
  generalize p s = out at hecho
  generalize q (s.rename ρ) = out' at hecho
  cases hecho with
  | read hs' hb =>
    subst hb
    exact (hu _ _ hs').after _
  | rejected hs' => exact .rejected hs'
  | exhausted => exact .exhausted

theorem Echoes.map {u : α → γ} {v : β → δ} (hp : Echoes ρ g p q) (hu : ∀ a, v (g a) = k (u a)) :
    Echoes ρ k (u <$> p) (v <$> q) :=
  hp.bind fun a => .pure (hu a)

end

/-! ## Single steps -/

theorem context_echoes : Echoes ρ id context context := fun _ hs => .read hs rfl

theorem atEnd_echoes : Echoes ρ id atEnd atEnd := fun s hs => .read hs (by simp)

theorem check_echoes (kind : TokenKind) : Echoes ρ id (check kind) (check kind) := by
  intro s hs
  refine .read hs ?_
  rcases hr : s.rest with _ | ⟨t, rest⟩ <;> simp [hr]

theorem atBodyEnd_echoes : Echoes ρ id atBodyEnd atBodyEnd := by
  intro s hs
  refine .read hs ?_
  rcases hr : s.rest with _ | ⟨t, rest⟩ <;> simp [hr]

/-- The next token decides how to go on. -/
theorem branch_echoes {select : Token → Option α} {select' : Token → Option β} {u : Option α → Parser γ}
    {v : Option β → Parser δ} {k : γ → δ}
    (h : ∀ t, (t.kind ≠ .identifier → ρ.apply t.lexeme = t.lexeme) →
      Option.Rel (fun a b => Echoes ρ k (u (some a)) (v (some b))) (select t) (select' (t.rename ρ)))
    (hnone : Echoes ρ k (u none) (v none)) : Echoes ρ k (take? select >>= u) (take? select' >>= v) := by
  intro s hs
  rw [bind_run, bind_run]
  rcases hr : s.rest with _ | ⟨t, rest⟩
  · simp only [take?, ParserState.rename_rest, hr, List.map_nil, ParserOutcome.after_nil]
    exact hnone s hs
  · rw [hr] at hs
    have ht := h t (hs t List.mem_cons_self)
    simp only [take?, ParserState.rename_rest, hr, List.map_cons]
    rcases hsel : select t with _ | a <;> rcases hsel' : select' (t.rename ρ) with _ | b <;>
      rw [hsel, hsel'] at ht <;> cases ht
    · simp only [ParserOutcome.after_nil]
      exact hnone s (hr ▸ hs)
    · rename_i hab
      simp only [ParserOutcome.after_nil]
      exact hab { s with rest } (hs.suffix (List.suffix_cons t rest))

theorem accept?_echoes (kind : TokenKind) : Echoes ρ (Option.map (Token.rename ρ)) (accept? kind) (accept? kind) := by
  have hbranch : Echoes ρ (Option.map (Token.rename ρ))
      (take? (fun t => if t.kind = kind then some t else none) >>= pure)
      (take? (fun t => if t.kind = kind then some t else none) >>= pure) := by
    refine branch_echoes (fun t _ => ?_) (.pure rfl)
    by_cases h : t.kind = kind
    · simp only [h, Token.rename_kind, if_true]
      exact .some (.pure rfl)
    · simp only [h, Token.rename_kind, if_false]
      exact .none
  intro s hs
  have hecho := hbranch s hs
  rwa [bind_pure_run, bind_pure_run] at hecho

theorem accept_echoes (kind : TokenKind) : Echoes ρ id (accept kind) (accept kind) :=
  (accept?_echoes kind).map fun t => by cases t <;> rfl

theorem faultHere_rename (fault : SyntaxFault) (s : ParserState) :
    (faultHere fault s).rename ρ = faultHere fault (s.rename ρ) := by
  rcases hr : s.rest with _ | ⟨t, rest⟩ <;> simp [faultHere, hr] <;> rfl

theorem reportAt_echoes (t : Token) (fault : SyntaxFault) : Echoes ρ id (reportAt t fault) (reportAt (t.rename ρ) fault) :=
  fun _ hs => .read hs rfl

theorem reportHere_echoes (fault : SyntaxFault) : Echoes ρ id (reportHere fault) (reportHere fault) := by
  intro s hs
  have h : Echo ρ id (reportHere fault s) (.read () (s.tallied.rename ρ) ([faultHere fault s].map (Report.rename ρ))) :=
    .read hs rfl
  rwa [List.map_cons, List.map_nil, faultHere_rename] at h

theorem reject_echoes {g : α → β} (fault : SyntaxFault) : Echoes ρ g (reject fault) (reject fault) := by
  intro s hs
  have h : Echo ρ g (reject fault s) (.rejected (s.tallied.rename ρ) [] ((faultHere fault s).rename ρ)) := .rejected hs
  rwa [faultHere_rename] at h

theorem expect_echoes (kind : TokenKind) (fault : SyntaxFault) :
    Echoes ρ (Token.rename ρ) (expect kind fault) (expect kind fault) := by
  refine (accept?_echoes kind).bind fun t => ?_
  cases t with
  | some t => exact .pure rfl
  | none => exact reject_echoes fault

theorem expectName_echoes (fault : SyntaxFault) : Echoes ρ (Name.rename ρ) (expectName fault) (expectName fault) :=
  (expect_echoes .identifier fault).bind fun _ => .pure rfl

theorem after?_echoes {g : α → β} {p : Parser α} {q : Parser β} (kind : TokenKind) (h : Echoes ρ g p q) :
    Echoes ρ (Option.map g) (after? kind p) (after? kind q) := by
  refine (accept_echoes kind).bind fun found => ?_
  cases found with
  | true => exact h.map fun _ => rfl
  | false => exact .pure rfl

theorem unless?_echoes {g : α → β} {p : Parser α} {q : Parser β} (stop : TokenKind) (h : Echoes ρ g p q) :
    Echoes ρ (Option.map g) (unless? stop p) (unless? stop q) := by
  refine (check_echoes stop).bind fun found => ?_
  cases found with
  | true => exact .pure rfl
  | false => exact h.map fun _ => rfl

theorem limit_echoes (count : Nat) (fault : SyntaxFault) : Echoes ρ id (limit count fault) (limit count fault) := by
  unfold limit
  split
  · exact reportHere_echoes fault
  · exact .pure rfl

theorem listed_echoes {g : α → β} {p : Parser (List α)} {q : Parser (List β)} (h : Echoes ρ (List.map g) p q) :
    Echoes ρ (List.map g) (listed p) (listed q) :=
  (unless?_echoes .rightParen h).map fun found => by cases found <;> rfl

theorem bracketed_echoes {g : α → β} {p : Parser α} {q : Parser β} (enter leave : Context → Context)
    (h : Echoes ρ g p q) : Echoes ρ g (bracketed enter leave p) (bracketed enter leave q) := by
  intro s hs
  have hecho := h { s with context := enter s.context } hs
  have hstate : ({ s with context := enter s.context } : ParserState).rename ρ =
      { s.rename ρ with context := enter s.context } := rfl
  rw [hstate] at hecho
  unfold bracketed
  rw [ParserState.rename_context]
  generalize p { s with context := enter s.context } = out at hecho
  generalize q { s.rename ρ with context := enter s.context } = out' at hecho
  cases hecho with
  | @read a b s' reports hs' hb =>
    exact .read (s := { s' with context := leave s'.context }) hs' hb
  | @rejected s' earlier reason hs' => exact .rejected (s := { s' with context := leave s'.context }) hs'
  | exhausted => exact .exhausted

theorem inClass_echoes {g : α → β} {p : Parser α} {q : Parser β} (enclosing : EnclosingClass)
    (h : Echoes ρ g p q) : Echoes ρ g (inClass enclosing p) (inClass enclosing q) :=
  context_echoes.bind fun _ => bracketed_echoes _ _ h

theorem skipStatement_rename (ts : List Token) :
    skipStatement (ts.map (Token.rename ρ)) = (skipStatement ts).map (Token.rename ρ) := by
  induction ts with
  | nil => rfl
  | cons t rest ih =>
    simp only [List.map_cons, skipStatement, Token.rename_kind, ih]
    split
    · rfl
    · split <;> rfl

theorem synchronize_rename (ts : List Token) :
    synchronize (ts.map (Token.rename ρ)) = (synchronize ts).map (Token.rename ρ) := by
  rcases ts with _ | ⟨t, rest⟩
  · rfl
  · simp only [List.map_cons, synchronize, Token.rename_kind, skipStatement_rename]
    split <;> rfl

theorem recovering_echoes {p q : Parser Stmt} (h : Echoes ρ (Stmt.rename ρ) p q) :
    Echoes ρ (Option.map (Stmt.rename ρ)) (recovering p) (recovering q) := by
  intro s hs
  have hecho := h s hs
  unfold recovering
  generalize p s = out at hecho
  generalize q (s.rename ρ) = out' at hecho
  cases hecho with
  | read hs' hb =>
    subst hb
    exact .read hs' rfl
  | @rejected s' earlier reason hs' =>
    have hkept : KeptTokens ρ (synchronize s'.rest) :=
      hs'.suffix ((synchronize_suffix _).trans (List.tail_suffix _))
    have hread : Echo ρ (Option.map (Stmt.rename ρ))
        (.read none { s' with rest := synchronize s'.rest } (earlier ++ [reason]))
        (.read none (ParserState.rename ρ { s' with rest := synchronize s'.rest })
          ((earlier ++ [reason]).map (Report.rename ρ))) := .read hkept rfl
    simp only [ParserState.rename_rest, synchronize_rename]
    rwa [List.map_append] at hread
  | exhausted => exact .exhausted

/-! ## Expressions -/

/-- What an operator makes of two operands has no names of its own. -/
theorem level_rename {level : Level} (hl : level ∈ levels) {kind : TokenKind} {combine : Nat → Expr → Expr → Expr}
    (h : level kind = some combine) (line : Nat) (l r : Expr) :
    (combine line l r).rename ρ = combine line (l.rename ρ) (r.rename ρ) := by
  simp only [levels, List.mem_cons, List.not_mem_nil, or_false] at hl
  rcases hl with rfl | rfl | rfl | rfl | rfl | rfl <;> cases kind <;>
    simp only [orLevel, andLevel, equalityLevel, comparisonLevel, sumLevel, productLevel, Option.some.injEq,
      reduceCtorEq] at h <;>
    subst h <;> simp [Expr.rename]

theorem operands_echoes {level : Level} (hl : level ∈ levels) {p q : Parser Expr} (h : Echoes ρ (Expr.rename ρ) p q)
    (n : Nat) :
    ∀ left : Expr, Echoes ρ (Expr.rename ρ) (operands p level n left) (operands q level n (left.rename ρ)) := by
  induction n with
  | zero => exact fun _ => .exhausted
  | succ n ih =>
    intro left
    refine branch_echoes (fun t _ => ?_) (.pure rfl)
    rw [Token.rename_kind, Token.rename_line]
    rcases hk : level t.kind with _ | combine
    · exact .none
    · refine .some (h.bind fun right => ?_)
      have hrest := ih (combine t.line left right)
      rwa [level_rename hl hk] at hrest

theorem binary_echoes {p q : Parser Expr} (h : Echoes ρ (Expr.rename ρ) p q) (bound : Nat) :
    ∀ ls : List Level, (∀ l ∈ ls, l ∈ levels) → Echoes ρ (Expr.rename ρ) (binary bound p ls) (binary bound q ls)
  | [], _ => h
  | _ :: ls, hls => by
    have htighter := binary_echoes h bound ls fun l hl => hls l (List.mem_cons_of_mem _ hl)
    exact htighter.bind fun left => operands_echoes (hls _ List.mem_cons_self) htighter bound left

structure InnerEchoes (ρ : Renaming) (i : Inner) : Prop where
  expression : Echoes ρ (Expr.rename ρ) i.expression i.expression
  unary : Echoes ρ (Expr.rename ρ) i.unary i.unary
  statement : Echoes ρ (Stmt.rename ρ) i.statement i.statement
  declaration : Echoes ρ (Option.map (Stmt.rename ρ)) i.declaration i.declaration

variable {i : Inner}

theorem arguments_echoes (h : InnerEchoes ρ i) (n : Nat) :
    ∀ count, Echoes ρ (List.map (Expr.rename ρ)) (arguments i n count) (arguments i n count) := by
  induction n with
  | zero => exact fun _ => .exhausted
  | succ n ih =>
    intro count
    refine (limit_echoes _ _).bind fun _ => h.expression.bind fun first => (accept_echoes _).bind fun more => ?_
    cases more with
    | true => exact (ih _).bind fun _ => .pure rfl
    | false => exact .pure rfl

theorem finishCall_echoes (h : InnerEchoes ρ i) (callee : Expr) :
    Echoes ρ (Expr.rename ρ) (finishCall i callee) (finishCall i (callee.rename ρ)) :=
  (listed_echoes (arguments_echoes h _ 0)).bind fun args => (expect_echoes _ _).bind fun _ =>
    .pure (by simp [Expr.rename])

theorem checkThis_echoes (t : Token) : Echoes ρ id (checkThis t) (checkThis (t.rename ρ)) := by
  refine context_echoes.bind fun c => ?_
  dsimp only [id]
  cases c.enclosingClass with
  | outside => exact reportAt_echoes _ _
  | base => exact .pure rfl
  | derived => exact .pure rfl

theorem checkSuper_echoes (t : Token) : Echoes ρ id (checkSuper t) (checkSuper (t.rename ρ)) := by
  refine context_echoes.bind fun c => ?_
  dsimp only [id]
  cases c.enclosingClass with
  | outside => exact reportAt_echoes _ _
  | base => exact reportAt_echoes _ _
  | derived => exact .pure rfl

theorem thisWord_echoes (t : Token) : Echoes ρ (Expr.rename ρ) (thisWord t) (thisWord (t.rename ρ)) :=
  (checkThis_echoes t).bind fun _ => .pure (by simp [Expr.rename])

theorem superMethod_echoes (t : Token) : Echoes ρ (Expr.rename ρ) (superMethod t) (superMethod (t.rename ρ)) :=
  (checkSuper_echoes t).bind fun _ => (expect_echoes _ _).bind fun _ => (expectName_echoes _).bind fun _ =>
    .pure (by simp [Expr.rename])

theorem group_echoes (h : InnerEchoes ρ i) : Echoes ρ (Expr.rename ρ) (group i) (group i) :=
  h.expression.bind fun _ => (expect_echoes _ _).bind fun _ => .pure (by simp [Expr.rename])

theorem primaryFrom_echoes (h : InnerEchoes ρ i) {t : Token} (ht : t.kind ≠ .identifier → ρ.apply t.lexeme = t.lexeme) :
    Option.Rel (Echoes ρ (Expr.rename ρ)) (primaryFrom i t) (primaryFrom i (t.rename ρ)) := by
  -- literals are read off their text, which a renaming keeps
  have hkept : t.kind ≠ .identifier → t.rename ρ = t := fun hk => by
    rw [Token.rename, ht hk]
  unfold primaryFrom
  rw [Token.rename_kind]
  cases hk : t.kind with
  | identifier => exact .some (.pure (by simp [Expr.rename, Name.rename]))
  | super_ => exact .some (superMethod_echoes t)
  | this_ => exact .some (thisWord_echoes t)
  | leftParen => exact .some (group_echoes h)
  | false_ | true_ | nil_ => exact .some (.pure (by simp [Expr.rename]))
  | number | string =>
    rw [hkept (by simp [hk])]
    exact .some (.pure (by simp [Expr.rename]))
  | _ => exact .none

theorem primary_echoes (h : InnerEchoes ρ i) : Echoes ρ (Expr.rename ρ) (primary i) (primary i) :=
  branch_echoes (fun _ ht => primaryFrom_echoes h ht) (reject_echoes _)

theorem accesses_echoes (h : InnerEchoes ρ i) (n : Nat) :
    ∀ e : Expr, Echoes ρ (Expr.rename ρ) (accesses i n e) (accesses i n (e.rename ρ)) := by
  induction n with
  | zero => exact fun _ => .exhausted
  | succ n ih =>
    intro e
    refine (accept_echoes _).bind fun called => ?_
    cases called with
    | true => exact (finishCall_echoes h e).bind fun e' => ih e'
    | false =>
      refine (accept_echoes _).bind fun got => ?_
      cases got with
      | true =>
        refine (expectName_echoes _).bind fun name => ?_
        have hget := ih (.get e name)
        rwa [Expr.rename] at hget
      | false => exact .pure rfl

theorem call_echoes (h : InnerEchoes ρ i) : Echoes ρ (Expr.rename ρ) (call i) (call i) :=
  (primary_echoes h).bind fun e => accesses_echoes h _ e

theorem unary_echoes (h : InnerEchoes ρ i) : Echoes ρ (Expr.rename ρ) (unary i) (unary i) := by
  refine branch_echoes (fun t _ => ?_) (call_echoes h)
  rw [Token.rename_kind, Token.rename_line]
  cases unaryOp? t.kind with
  | none => exact .none
  | some op => exact .some (h.unary.bind fun e => .pure (by simp [Expr.rename]))

theorem assignTo?_rename (value target : Expr) :
    assignTo? (value.rename ρ) (target.rename ρ) = (assignTo? value target).map (Expr.rename ρ) := by
  cases target <;> simp [assignTo?, Expr.rename]

theorem expression_echoes (h : InnerEchoes ρ i) : Echoes ρ (Expr.rename ρ) (expression i) (expression i) := by
  refine (binary_echoes (unary_echoes h) _ levels fun _ hl => hl).bind fun left => ?_
  refine (accept?_echoes _).bind fun equal => ?_
  cases equal with
  | none => exact .pure rfl
  | some equal =>
    refine h.expression.bind fun value => ?_
    rw [assignTo?_rename]
    cases assignTo? value left with
    | some assignment => exact .pure rfl
    | none => exact (reportAt_echoes _ _).bind fun _ => .pure rfl

/-! ## Statements and declarations -/

theorem declarations_echoes (h : InnerEchoes ρ i) :
    ∀ n, Echoes ρ (List.map (Stmt.rename ρ)) (declarations i n) (declarations i n)
  | 0 => .exhausted
  | n + 1 => by
    refine atBodyEnd_echoes.bind fun done => ?_
    cases done with
    | true => exact .pure rfl
    | false =>
      exact h.declaration.bind fun first => (declarations_echoes h n).bind fun _ =>
        .pure (by cases first <;> simp)

theorem block_echoes (h : InnerEchoes ρ i) : Echoes ρ (List.map (Stmt.rename ρ)) (block i) (block i) :=
  (declarations_echoes h _).bind fun _ => (expect_echoes _ _).bind fun _ => .pure rfl

theorem parameters_echoes (n : Nat) :
    ∀ count, Echoes ρ (List.map (Name.rename ρ)) (parameters n count) (parameters n count) := by
  induction n with
  | zero => exact fun _ => .exhausted
  | succ n ih =>
    intro count
    refine (limit_echoes _ _).bind fun _ => (expectName_echoes _).bind fun first => (accept_echoes _).bind fun more => ?_
    cases more with
    | true => exact (ih _).bind fun _ => .pure rfl
    | false => exact .pure rfl

/-- Whether a method is an initializer does not depend on the renaming. -/
theorem named_rename (kind : FunctionKind) (name : Bytes) : kind.named (ρ.apply name) = kind.named name := by
  cases kind <;> simp [FunctionKind.named, ρ.apply_eq_initializer]

theorem function_echoes (h : InnerEchoes ρ i) (kind : FunctionKind) :
    Echoes ρ (FunctionDecl.rename ρ) (function i kind) (function i kind) := by
  refine (expectName_echoes _).bind fun name => ?_
  rw [Name.rename_text, named_rename]
  refine bracketed_echoes _ _ ?_
  exact (expect_echoes _ _).bind fun _ => (listed_echoes (parameters_echoes _ 0)).bind fun params =>
    (expect_echoes _ _).bind fun _ => (expect_echoes _ _).bind fun _ => (block_echoes h).bind fun body =>
    .pure (by simp [FunctionDecl.rename])

theorem methods_echoes (h : InnerEchoes ρ i) :
    ∀ n, Echoes ρ (List.map (FunctionDecl.rename ρ)) (methods i n) (methods i n)
  | 0 => .exhausted
  | n + 1 => by
    refine atBodyEnd_echoes.bind fun done => ?_
    cases done with
    | true => exact .pure rfl
    | false =>
      exact (function_echoes h _).bind fun first => (methods_echoes h n).bind fun _ => .pure rfl

theorem checkParent_echoes (name : Name) (t : Token) :
    Echoes ρ id (checkParent name t) (checkParent (name.rename ρ) (t.rename ρ)) := by
  unfold checkParent
  simp only [Token.rename_lexeme, Name.rename_text, ρ.apply_inj]
  split
  · exact reportAt_echoes _ _
  · exact .pure rfl

theorem parentName_echoes (name : Name) :
    Echoes ρ (Name.rename ρ) (parentName name) (parentName (name.rename ρ)) :=
  (expect_echoes _ _).bind fun t => (checkParent_echoes name t).bind fun _ => .pure rfl

theorem classDecl_echoes (h : InnerEchoes ρ i) : Echoes ρ (Stmt.rename ρ) (classDecl i) (classDecl i) := by
  refine (expectName_echoes _).bind fun name => (after?_echoes _ (parentName_echoes name)).bind fun parent => ?_
  rw [Option.isSome_map]
  refine inClass_echoes _ ?_
  exact (expect_echoes _ _).bind fun _ => (methods_echoes h _).bind fun members =>
    (expect_echoes _ _).bind fun _ => .pure (by simp [Stmt.rename])

theorem varDecl_echoes (h : InnerEchoes ρ i) : Echoes ρ (Stmt.rename ρ) (varDecl i) (varDecl i) :=
  (expectName_echoes _).bind fun _ => (after?_echoes _ (expression_echoes h)).bind fun _ =>
    (expect_echoes _ _).bind fun _ => .pure (by simp [Stmt.rename])

theorem expressionStmt_echoes (h : InnerEchoes ρ i) :
    Echoes ρ (Stmt.rename ρ) (expressionStmt i) (expressionStmt i) :=
  (expression_echoes h).bind fun _ => (expect_echoes _ _).bind fun _ => .pure (by simp [Stmt.rename])

theorem forInitializer_echoes (h : InnerEchoes ρ i) :
    Echoes ρ (Option.map (Stmt.rename ρ)) (forInitializer i) (forInitializer i) := by
  refine (accept_echoes _).bind fun absent => ?_
  cases absent with
  | true => exact .pure rfl
  | false =>
    refine (accept_echoes _).bind fun declared => ?_
    cases declared with
    | true => exact (varDecl_echoes h).map fun _ => rfl
    | false => exact (expressionStmt_echoes h).map fun _ => rfl

theorem forStmt_echoes (h : InnerEchoes ρ i) : Echoes ρ (Stmt.rename ρ) (forStmt i) (forStmt i) :=
  (expect_echoes _ _).bind fun _ => (forInitializer_echoes h).bind fun _ =>
    (unless?_echoes _ (expression_echoes h)).bind fun _ => (expect_echoes _ _).bind fun _ =>
    (unless?_echoes _ (expression_echoes h)).bind fun _ => (expect_echoes _ _).bind fun _ =>
    h.statement.bind fun _ => .pure (Stmt.rename_counting ρ _ _ _ _).symm

theorem ifStmt_echoes (h : InnerEchoes ρ i) : Echoes ρ (Stmt.rename ρ) (ifStmt i) (ifStmt i) :=
  (expect_echoes _ _).bind fun _ => (expression_echoes h).bind fun _ => (expect_echoes _ _).bind fun _ =>
    h.statement.bind fun _ => (after?_echoes _ h.statement).bind fun _ => .pure (Stmt.rename_ifElse ρ _ _ _).symm

theorem whileStmt_echoes (h : InnerEchoes ρ i) : Echoes ρ (Stmt.rename ρ) (whileStmt i) (whileStmt i) :=
  (expect_echoes _ _).bind fun _ => (expression_echoes h).bind fun _ => (expect_echoes _ _).bind fun _ =>
    h.statement.bind fun _ => .pure (by simp [Stmt.rename])

theorem printStmt_echoes (h : InnerEchoes ρ i) : Echoes ρ (Stmt.rename ρ) (printStmt i) (printStmt i) :=
  (expression_echoes h).bind fun _ => (expect_echoes _ _).bind fun _ => .pure (by simp [Stmt.rename])

theorem checkReturn_echoes (t : Token) : Echoes ρ id (checkReturn t) (checkReturn (t.rename ρ)) := by
  refine context_echoes.bind fun c => ?_
  dsimp only [id]
  cases c.functions with
  | nil => exact reportAt_echoes _ _
  | cons _ _ => exact .pure rfl

theorem returnStmt_echoes (h : InnerEchoes ρ i) (t : Token) :
    Echoes ρ (Stmt.rename ρ) (returnStmt i t) (returnStmt i (t.rename ρ)) :=
  (checkReturn_echoes t).bind fun _ => (unless?_echoes _ (expression_echoes h)).bind fun _ =>
    (expect_echoes _ _).bind fun _ => .pure (by simp [Stmt.rename])

theorem statementFrom_echoes (h : InnerEchoes ρ i) (t : Token) :
    Option.Rel (Echoes ρ (Stmt.rename ρ)) (statementFrom i t) (statementFrom i (t.rename ρ)) := by
  unfold statementFrom
  rw [Token.rename_kind]
  cases t.kind with
  | for_ => exact .some (forStmt_echoes h)
  | if_ => exact .some (ifStmt_echoes h)
  | print_ => exact .some (printStmt_echoes h)
  | return_ => exact .some (returnStmt_echoes h t)
  | while_ => exact .some (whileStmt_echoes h)
  | leftBrace => exact .some ((block_echoes h).map fun _ => by simp [Stmt.rename])
  | _ => exact .none

theorem statement_echoes (h : InnerEchoes ρ i) : Echoes ρ (Stmt.rename ρ) (statement i) (statement i) :=
  branch_echoes (fun t _ => statementFrom_echoes h t) (expressionStmt_echoes h)

theorem declarationFrom_echoes (h : InnerEchoes ρ i) (t : Token) :
    Option.Rel (Echoes ρ (Stmt.rename ρ)) (declarationFrom i t) (declarationFrom i (t.rename ρ)) := by
  unfold declarationFrom
  rw [Token.rename_kind]
  cases t.kind with
  | class_ => exact .some (classDecl_echoes h)
  | fun_ => exact .some ((function_echoes h _).map fun _ => by simp [Stmt.rename])
  | var_ => exact .some (varDecl_echoes h)
  | _ => exact .none

theorem declaration_echoes (h : InnerEchoes ρ i) :
    Echoes ρ (Option.map (Stmt.rename ρ)) (declaration i) (declaration i) :=
  recovering_echoes (branch_echoes (fun t _ => declarationFrom_echoes h t) (statement_echoes h))

theorem inner_echoes (ρ : Renaming) : ∀ n, InnerEchoes ρ (inner n)
  | 0 => ⟨.exhausted, .exhausted, .exhausted, .exhausted⟩
  | n + 1 => {
      expression := expression_echoes (inner_echoes ρ n)
      unary := unary_echoes (inner_echoes ρ n)
      statement := statement_echoes (inner_echoes ρ n)
      declaration := declaration_echoes (inner_echoes ρ n) }

theorem program_echoes (h : InnerEchoes ρ i) :
    ∀ n, Echoes ρ (List.map (Stmt.rename ρ)) (program i n) (program i n)
  | 0 => .exhausted
  | n + 1 => by
    refine atEnd_echoes.bind fun done => ?_
    cases done with
    | true => exact .pure rfl
    | false =>
      exact (declaration_echoes h).bind fun first => (program_echoes h n).bind fun _ =>
        .pure (by cases first <;> simp)

end Parser

def Parsed.rename (p : Parsed) : Parsed :=
  { p with statements := p.statements.map (Stmt.rename ρ), reports := p.reports.map (Report.rename ρ) }

theorem parse_rename {tokens : List Token} (h : KeptTokens ρ tokens) (endLine errors : Nat) :
    parse (tokens.map (Token.rename ρ)) endLine errors = (parse tokens endLine errors).rename ρ := by
  have hecho := Parser.program_echoes (Parser.inner_echoes ρ (tokens.length + 1)) (tokens.length + 1)
    { rest := tokens, endLine, errors } h
  unfold parse
  simp only [List.length_map]
  change Parser.Echo ρ _ _ (Parser.program _ _ { rest := tokens.map (Token.rename ρ), endLine, errors }) at hecho
  generalize Parser.program _ _ { rest := tokens, endLine, errors } = out at hecho ⊢
  generalize Parser.program _ _ { rest := tokens.map (Token.rename ρ), endLine, errors } = out' at hecho ⊢
  cases hecho with
  | read _ hb => simp [Parsed.rename, ParserState.rename, hb]
  | rejected _ => simp [Parsed.rename, ParserState.rename]
  | exhausted => simp [Parsed.rename]

end Lox
