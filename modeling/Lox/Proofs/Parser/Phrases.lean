/-
  Lox.Proofs.Parser.Phrases — every phrase of the language, read side by side with other
  bounds and other line numbers (`Parser.Parallel`). It goes through the phrases once, in
  the order of their definitions, and closes the knot at `inner_parallel`: bounds above the
  number of tokens left make no difference.
-/

import Lox.Proofs.Parser.Parallel

namespace Lox.Parser

variable {f : Nat → Nat} {n : Nat}

/-- The inner parsers agree on fewer than `n` tokens, and both bounds are above `n`. -/
structure InnerParallel (f : Nat → Nat) (n : Nat) (i i' : Inner) : Prop where
  bound : n < i.bound
  bound' : n < i'.bound
  expression : ∀ j < n, Parallel f j (Shorter j (Expr.renumber f)) i.expression i'.expression
  unary : ∀ j < n, Parallel f j (Shorter j (Expr.renumber f)) i.unary i'.unary
  statement : ∀ j < n, Parallel f j (Shorter j (Stmt.renumber f)) i.statement i'.statement
  declaration : ∀ j < n,
    Parallel f j (fun k a b => (0 < j → k < j) ∧ b = a.map (Stmt.renumber f)) i.declaration i'.declaration

variable {i i' : Inner}

theorem InnerParallel.mono (h : InnerParallel f n i i') {j : Nat} (hj : j ≤ n) : InnerParallel f j i i' where
  bound := by have := h.bound; omega
  bound' := by have := h.bound'; omega
  expression k hk := h.expression k (by omega)
  unary k hk := h.unary k (by omega)
  statement k hk := h.statement k (by omega)
  declaration k hk := h.declaration k (by omega)

/-! ## Expressions -/

/-- What an operator makes of two operands passes lines on. -/
theorem level_renumber {level : Level} (hl : level ∈ levels) {kind : TokenKind} {combine : Nat → Expr → Expr → Expr}
    (h : level kind = some combine) (line : Nat) (l r : Expr) :
    (combine line l r).renumber f = combine (f line) (l.renumber f) (r.renumber f) := by
  simp only [levels, List.mem_cons, List.not_mem_nil, or_false] at hl
  rcases hl with rfl | rfl | rfl | rfl | rfl | rfl <;> cases kind <;>
    simp only [orLevel, andLevel, equalityLevel, comparisonLevel, sumLevel, productLevel, Option.some.injEq,
      reduceCtorEq] at h <;>
    subst h <;> simp [Expr.renumber]

theorem operands_parallel {level : Level} (hl : level ∈ levels) {p q : Parser Expr} (n : Nat)
    (h : ∀ j < n, Parallel f j (Image (Expr.renumber f)) p q) :
    ∀ (b b' : Nat) (left : Expr), n < b → n < b' →
      Parallel f n (Image (Expr.renumber f)) (operands p level b left) (operands q level b' (left.renumber f)) := by
  induction n using Nat.strongRecOn with
  | ind n ih =>
    intro b b' left hb hb'
    obtain ⟨b, rfl⟩ : ∃ k, b = k + 1 := ⟨b - 1, by omega⟩
    obtain ⟨b', rfl⟩ : ∃ k, b' = k + 1 := ⟨b' - 1, by omega⟩
    simp only [operands]
    have hsel : ∀ t : Token, Option.Rel (fun c c' => ∀ l r, (c l r).renumber f = c' (l.renumber f) (r.renumber f))
        ((level t.kind).map (· t.line)) ((level (t.renumber f).kind).map (· (t.renumber f).line)) := by
      intro t
      rcases hk : level t.kind with _ | combine
      · simp [hk]
      · simpa [hk] using level_renumber hl hk t.line
    refine (take?_parallel hsel).bind ?_
    rintro j _ _ hj (⟨hlt, hc⟩ | _)
    · refine (h j hlt).bind ?_
      rintro k right _ hk rfl
      rw [← hc]
      exact ih k (by omega) (fun m hm => h m (by omega)) b b' _ (by omega) (by omega)
    · exact .image rfl

/-- By induction on the levels, the loosest first. -/
theorem binary_parallel {p q : Parser Expr} {b b' : Nat} (hb : n < b) (hb' : n < b')
    (h : ∀ j ≤ n, Parallel f j (Shorter j (Expr.renumber f)) p q) (ls : List Level) (hls : ∀ l ∈ ls, l ∈ levels) :
    ∀ j ≤ n, Parallel f j (Shorter j (Expr.renumber f)) (binary b p ls) (binary b' q ls) := by
  induction ls with
  | nil => exact h
  | cons level tighter ih =>
    intro j hj
    have ih := ih fun l hl => hls l (List.mem_cons_of_mem _ hl)
    refine (ih j hj).bind ?_
    rintro k left _ - ⟨hk, rfl⟩
    have hop : ∀ m < k, Parallel f m (Image (Expr.renumber f)) (binary b p tighter) (binary b' q tighter) :=
      fun m hm => (ih m (by omega)).imp fun _ _ _ _ hab => hab.2
    exact (operands_parallel (hls level List.mem_cons_self) k hop b b' left (by omega) (by omega)).imp
      fun m _ _ hm hab => ⟨by omega, hab⟩

theorem arguments_parallel (n : Nat) (h : ∀ j ≤ n, Parallel f j (Shorter j (Expr.renumber f)) i.expression i'.expression) :
    ∀ b b' count, n < b → n < b' →
      Parallel f n (Image (List.map (Expr.renumber f))) (arguments i b count) (arguments i' b' count) := by
  induction n using Nat.strongRecOn with
  | ind n ih =>
    intro b b' count hb hb'
    obtain ⟨b, rfl⟩ : ∃ k, b = k + 1 := ⟨b - 1, by omega⟩
    obtain ⟨b', rfl⟩ : ∃ k, b' = k + 1 := ⟨b' - 1, by omega⟩
    simp only [arguments]
    refine (limit_parallel count _).bind fun j _ _ hj _ => ?_
    refine (h j hj).bind ?_
    rintro k first _ - ⟨hk, rfl⟩
    refine (accept_parallel .comma).bind ?_
    rintro m _ more hm ⟨rfl, -⟩
    cases more with
    | true =>
      refine (ih m (by omega) (fun l hl => h l (by omega)) b b' _ (by omega) (by omega)).bind ?_
      rintro _ es _ - rfl
      exact .image rfl
    | false => exact .image rfl

theorem finishCall_parallel (h : InnerParallel f n i i') (j : Nat) (hj : j < n) (callee : Expr) :
    Parallel f j (Image (Expr.renumber f)) (finishCall i callee) (finishCall i' (callee.renumber f)) := by
  have hargs := arguments_parallel j (fun k hk => h.expression k (by omega)) i.bound i'.bound 0
    (Nat.lt_trans hj h.bound) (Nat.lt_trans hj h.bound')
  refine (listed_parallel hargs).bind ?_
  rintro k args _ - rfl
  refine (expect_parallel _ _).bind ?_
  rintro _ close _ - ⟨-, rfl⟩
  exact .image (by simp [Expr.renumber])

theorem checkThis_parallel (t : Token) :
    Parallel f n (fun _ _ _ => True) (checkThis t) (checkThis (t.renumber f)) := by
  refine context_parallel.bind ?_
  rintro j _ c - rfl
  cases c.enclosingClass with
  | outside => exact reportAt_parallel t _
  | base => exact .pure fun _ _ => trivial
  | derived => exact .pure fun _ _ => trivial

theorem checkSuper_parallel (t : Token) :
    Parallel f n (fun _ _ _ => True) (checkSuper t) (checkSuper (t.renumber f)) := by
  refine context_parallel.bind ?_
  rintro j _ c - rfl
  cases c.enclosingClass with
  | outside => exact reportAt_parallel t _
  | base => exact reportAt_parallel t _
  | derived => exact .pure fun _ _ => trivial

theorem thisWord_parallel (t : Token) :
    Parallel f n (Image (Expr.renumber f)) (thisWord t) (thisWord (t.renumber f)) :=
  (checkThis_parallel t).bind fun _ _ _ _ _ => .image (by simp [Expr.renumber])

theorem superMethod_parallel (t : Token) :
    Parallel f n (Image (Expr.renumber f)) (superMethod t) (superMethod (t.renumber f)) := by
  refine (checkSuper_parallel t).bind fun _ _ _ _ _ => ?_
  refine (expect_parallel _ _).bind fun _ _ _ _ _ => ?_
  refine (expectName_parallel _).bind ?_
  rintro _ method _ - ⟨-, rfl⟩
  exact .image (by simp [Expr.renumber])

theorem group_parallel (h : InnerParallel f n i i') (j : Nat) (hj : j < n) :
    Parallel f j (Image (Expr.renumber f)) (group i) (group i') := by
  refine (h.expression j hj).bind ?_
  rintro k e _ - ⟨-, rfl⟩
  exact (expect_parallel _ _).bind fun _ _ _ _ _ => .image (by simp [Expr.renumber])

theorem primaryFrom_parallel (h : InnerParallel f n i i') (t : Token) :
    Option.Rel (fun p q => ∀ j < n, Parallel f j (Image (Expr.renumber f)) p q)
      (primaryFrom i t) (primaryFrom i' (t.renumber f)) := by
  unfold primaryFrom
  rw [Token.renumber_kind]
  cases t.kind with
  | super_ => exact .some fun _ _ => superMethod_parallel t
  | this_ => exact .some fun _ _ => thisWord_parallel t
  | leftParen => exact .some fun j hj => group_parallel h j hj
  | false_ | true_ | nil_ | number | string | identifier =>
    exact .some fun _ _ => .image (by simp [Expr.renumber, Name.renumber])
  | _ => exact .none

theorem primary_parallel (h : InnerParallel f n i i') :
    Parallel f n (Shorter n (Expr.renumber f)) (primary i) (primary i') := by
  refine (take?_parallel (primaryFrom_parallel h)).bind ?_
  rintro j _ _ - (⟨hj, hp⟩ | _)
  · exact (hp j hj).imp fun k _ _ hk hab => ⟨by omega, hab⟩
  · exact reject_parallel _

theorem accesses_parallel (n : Nat) (h : InnerParallel f n i i') : ∀ b b' (e : Expr), n < b → n < b' →
    Parallel f n (Image (Expr.renumber f)) (accesses i b e) (accesses i' b' (e.renumber f)) := by
  induction n using Nat.strongRecOn with
  | ind n ih =>
    intro b b' e hb hb'
    obtain ⟨b, rfl⟩ : ∃ k, b = k + 1 := ⟨b - 1, by omega⟩
    obtain ⟨b', rfl⟩ : ∃ k, b' = k + 1 := ⟨b' - 1, by omega⟩
    simp only [accesses]
    refine (accept_parallel .leftParen).bind ?_
    rintro j _ isCall hj ⟨rfl, hlt⟩
    cases isCall with
    | true =>
      have hlt := hlt rfl
      refine (finishCall_parallel h j hlt e).bind ?_
      rintro k e _ hk rfl
      exact ih k (by omega) (h.mono (by omega)) b b' e (by omega) (by omega)
    | false =>
      refine (accept_parallel .dot).bind ?_
      rintro k _ isGet hk ⟨rfl, hlt⟩
      cases isGet with
      | true =>
        have hlt := hlt rfl
        refine (expectName_parallel _).bind ?_
        rintro m name _ hm ⟨-, rfl⟩
        exact ih m (by omega) (h.mono (by omega)) b b' (.get e name) (by omega) (by omega)
      | false => exact .image rfl

theorem call_parallel (h : InnerParallel f n i i') :
    Parallel f n (Shorter n (Expr.renumber f)) (call i) (call i') := by
  refine (primary_parallel h).bind ?_
  rintro j e _ - ⟨hj, rfl⟩
  exact (accesses_parallel j (h.mono (by omega)) i.bound i'.bound e (Nat.lt_trans hj h.bound)
    (Nat.lt_trans hj h.bound')).imp fun k _ _ hk hab => ⟨by omega, hab⟩

theorem unary_parallel (h : InnerParallel f n i i') :
    Parallel f n (Shorter n (Expr.renumber f)) (unary i) (unary i') := by
  have hsel : ∀ t : Token, Option.Rel (fun c c' => ∀ e, (c e).renumber f = c' (e.renumber f))
      ((unaryOp? t.kind).map (Expr.unary · t.line))
      ((unaryOp? (t.renumber f).kind).map (Expr.unary · (t.renumber f).line)) := by
    intro t
    rcases hk : unaryOp? t.kind with _ | op <;> simp [hk, Expr.renumber]
  refine (take?_parallel hsel).bind ?_
  rintro j _ _ hj (⟨hlt, hc⟩ | _)
  · refine (h.unary j hlt).bind ?_
    rintro k operand _ - ⟨hk, rfl⟩
    rw [← hc]
    exact .pure fun _ _ => ⟨by omega, rfl⟩
  · exact (call_parallel (h.mono hj)).imp fun k _ _ hk hab => ⟨by omega, hab.2⟩

theorem assignTo?_renumber (value left : Expr) :
    assignTo? (value.renumber f) (left.renumber f) = (assignTo? value left).map (Expr.renumber f) := by
  cases left <;> simp [assignTo?, Expr.renumber]

theorem expression_parallel (h : InnerParallel f n i i') :
    Parallel f n (Shorter n (Expr.renumber f)) (expression i) (expression i') := by
  have hb := binary_parallel h.bound h.bound' (fun j hj => unary_parallel (h.mono hj)) levels (fun _ hl => hl)
  refine (hb n (Nat.le_refl n)).bind ?_
  rintro j left _ - ⟨hj, rfl⟩
  refine (accept?_parallel .equal).bind ?_
  rintro k _ _ hk (⟨hlt, rfl, -⟩ | _)
  · rename_i equal
    refine (h.expression k (by omega)).bind ?_
    rintro m value _ - ⟨hm, rfl⟩
    simp only [assignTo?_renumber]
    rcases assignTo? value left with _ | assignment
    · exact (reportAt_parallel equal _).bind fun _ _ _ _ _ => .pure fun _ _ => ⟨by omega, rfl⟩
    · exact .pure fun _ _ => ⟨by omega, rfl⟩
  · exact .pure fun m hm => ⟨by omega, rfl⟩

/-! ## Statements and declarations -/

theorem declarations_parallel (n : Nat) (h : ∀ j ≤ n,
      Parallel f j (fun k a b => (0 < j → k < j) ∧ b = a.map (Stmt.renumber f)) i.declaration i'.declaration) :
    ∀ b b', n < b → n < b' →
      Parallel f n (Image (List.map (Stmt.renumber f))) (declarations i b) (declarations i' b') := by
  induction n using Nat.strongRecOn with
  | ind n ih =>
    intro b b' hb hb'
    obtain ⟨b, rfl⟩ : ∃ k, b = k + 1 := ⟨b - 1, by omega⟩
    obtain ⟨b', rfl⟩ : ∃ k, b' = k + 1 := ⟨b' - 1, by omega⟩
    simp only [declarations]
    refine atBodyEnd_parallel.bind ?_
    rintro j _ ended hj ⟨rfl, hpos⟩
    cases ended with
    | true => exact .image rfl
    | false =>
      refine (h j hj).bind ?_
      rintro k first _ hk ⟨hlt, rfl⟩
      have hlt := hlt (hpos rfl)
      refine (ih k (by omega) (fun m hm => h m (by omega)) b b' (by omega) (by omega)).bind ?_
      rintro _ rest _ - rfl
      exact .image (by cases first <;> simp)

theorem block_parallel (h : InnerParallel f n i i') (j : Nat) (hj : j < n) :
    Parallel f j (Image (List.map (Stmt.renumber f))) (block i) (block i') := by
  refine (declarations_parallel j (fun k hk => h.declaration k (by omega)) i.bound i'.bound
    (Nat.lt_trans hj h.bound) (Nat.lt_trans hj h.bound')).bind ?_
  rintro k body _ - rfl
  exact (expect_parallel _ _).bind fun _ _ _ _ _ => .image rfl

theorem parameters_parallel (n : Nat) : ∀ b b' count, n < b → n < b' →
    Parallel f n (Image (List.map (Name.renumber f))) (parameters b count) (parameters b' count) := by
  induction n using Nat.strongRecOn with
  | ind n ih =>
    intro b b' count hb hb'
    obtain ⟨b, rfl⟩ : ∃ k, b = k + 1 := ⟨b - 1, by omega⟩
    obtain ⟨b', rfl⟩ : ∃ k, b' = k + 1 := ⟨b' - 1, by omega⟩
    simp only [parameters]
    refine (limit_parallel count _).bind fun j _ _ hj _ => ?_
    refine (expectName_parallel _).bind ?_
    rintro k first _ - ⟨hk, rfl⟩
    refine (accept_parallel .comma).bind ?_
    rintro m _ more hm ⟨rfl, -⟩
    cases more with
    | true =>
      refine (ih m (by omega) b b' _ (by omega) (by omega)).bind ?_
      rintro _ es _ - rfl
      exact .image rfl
    | false => exact .image rfl

theorem function_parallel (h : InnerParallel f n i i') (kind : FunctionKind) :
    Parallel f n (Shorter n (FunctionDecl.renumber f)) (function i kind) (function i' kind) := by
  refine (expectName_parallel _).bind ?_
  rintro j name _ - ⟨hj, rfl⟩
  refine inFunction_parallel _ ?_
  refine (expect_parallel _ _).bind fun k _ _ _ hk => ?_
  have hparams := parameters_parallel (f := f) k i.bound i'.bound 0
    (by have := h.bound; omega) (by have := h.bound'; omega)
  refine (listed_parallel hparams).bind ?_
  rintro l params _ hl rfl
  refine (expect_parallel _ _).bind fun l _ _ _ hl => ?_
  refine (expect_parallel _ _).bind fun l _ _ _ hl => ?_
  refine (block_parallel h l (by omega)).bind ?_
  rintro l body _ hl rfl
  exact .pure fun m hm => ⟨by omega, by simp [FunctionDecl.renumber]⟩

theorem methods_parallel (n : Nat) (h : InnerParallel f n i i') : ∀ b b', n < b → n < b' →
    Parallel f n (Image (List.map (FunctionDecl.renumber f))) (methods i b) (methods i' b') := by
  induction n using Nat.strongRecOn with
  | ind n ih =>
    intro b b' hb hb'
    obtain ⟨b, rfl⟩ : ∃ k, b = k + 1 := ⟨b - 1, by omega⟩
    obtain ⟨b', rfl⟩ : ∃ k, b' = k + 1 := ⟨b' - 1, by omega⟩
    simp only [methods]
    refine atBodyEnd_parallel.bind ?_
    rintro j _ ended hj ⟨rfl, -⟩
    cases ended with
    | true => exact .image rfl
    | false =>
      refine (function_parallel (h.mono hj) _).bind ?_
      rintro k first _ - ⟨hk, rfl⟩
      refine (ih k (by omega) (h.mono (by omega)) b b' (by omega) (by omega)).bind ?_
      rintro _ rest _ - rfl
      exact .image rfl

theorem checkParent_parallel (name : Name) (t : Token) :
    Parallel f n (fun _ _ _ => True) (checkParent name t) (checkParent (name.renumber f) (t.renumber f)) := by
  unfold checkParent
  by_cases h : t.lexeme = name.text
  · have h' : (t.renumber f).lexeme = (name.renumber f).text := h
    rw [if_pos h, if_pos h']
    exact reportAt_parallel t _
  · have h' : ¬ (t.renumber f).lexeme = (name.renumber f).text := h
    rw [if_neg h, if_neg h']
    exact .pure fun _ _ => trivial

theorem parentName_parallel (name : Name) :
    Parallel f n (Image (Name.renumber f)) (parentName name) (parentName (name.renumber f)) := by
  refine (expect_parallel _ _).bind ?_
  rintro j t _ - ⟨-, rfl⟩
  exact (checkParent_parallel name t).bind fun _ _ _ _ _ => .image rfl

theorem classDecl_parallel (h : InnerParallel f n i i') :
    Parallel f n (Image (Stmt.renumber f)) (classDecl i) (classDecl i') := by
  refine (expectName_parallel _).bind ?_
  rintro j name _ - ⟨hj, rfl⟩
  refine (after?_parallel .less fun _ _ => parentName_parallel name).bind ?_
  rintro k parent _ hk rfl
  rw [Option.isSome_map]
  refine inClass_parallel _ ?_
  refine (expect_parallel _ _).bind fun l _ _ _ hl => ?_
  refine (methods_parallel l (h.mono (by omega)) i.bound i'.bound
    (by have := h.bound; omega) (by have := h.bound'; omega)).bind ?_
  rintro _ members _ - rfl
  exact (expect_parallel _ _).bind fun _ _ _ _ _ => .image (by simp [Stmt.renumber])

/-- An expression where what it costs does not matter. -/
theorem expression_image (h : InnerParallel f n i i') :
    Parallel f n (Image (Expr.renumber f)) (expression i) (expression i') :=
  (expression_parallel h).imp fun _ _ _ _ hab => hab.2

theorem varDecl_parallel (h : InnerParallel f n i i') :
    Parallel f n (Image (Stmt.renumber f)) (varDecl i) (varDecl i') := by
  refine (expectName_parallel _).bind ?_
  rintro j name _ - ⟨hj, rfl⟩
  refine (after?_parallel .equal fun k hk => expression_image (h.mono (by omega))).bind ?_
  rintro _ init _ - rfl
  exact (expect_parallel _ _).bind fun _ _ _ _ _ => .image (by simp [Stmt.renumber])

theorem expressionStmt_parallel (h : InnerParallel f n i i') :
    Parallel f n (Shorter n (Stmt.renumber f)) (expressionStmt i) (expressionStmt i') := by
  refine (expression_parallel h).bind ?_
  rintro j e _ - ⟨hj, rfl⟩
  exact (expect_parallel _ _).bind fun k _ _ hk _ => .pure fun m hm => ⟨by omega, by simp [Stmt.renumber]⟩

theorem forInitializer_parallel (h : InnerParallel f n i i') :
    Parallel f n (Image (Option.map (Stmt.renumber f))) (forInitializer i) (forInitializer i') := by
  refine (accept_parallel .semicolon).bind ?_
  rintro j _ none hj ⟨rfl, -⟩
  cases none with
  | true => exact .image rfl
  | false =>
    refine (accept_parallel .var_).bind ?_
    rintro k _ isVar hk ⟨rfl, -⟩
    cases isVar with
    | true => exact (varDecl_parallel (h.mono (by omega))).map fun _ _ _ _ hab => by rw [hab]; rfl
    | false => exact (expressionStmt_parallel (h.mono (by omega))).map fun _ _ _ _ hab => by rw [hab.2]; rfl

theorem forStmt_parallel (h : InnerParallel f n i i') (j : Nat) (hj : j < n) :
    Parallel f j (Image (Stmt.renumber f)) (forStmt i) (forStmt i') := by
  refine (expect_parallel _ _).bind fun k _ _ hk _ => ?_
  refine (forInitializer_parallel (h.mono (by omega))).bind ?_
  rintro k init _ hk rfl
  refine (unless?_parallel _ (expression_image (h.mono (by omega)))).bind ?_
  rintro k cond _ hk rfl
  refine (expect_parallel _ _).bind fun k _ _ hk _ => ?_
  refine (unless?_parallel _ (expression_image (h.mono (by omega)))).bind ?_
  rintro k inc _ hk rfl
  refine (expect_parallel _ _).bind fun k _ _ hk _ => ?_
  refine (h.statement k (by omega)).bind ?_
  rintro _ body _ - ⟨-, rfl⟩
  exact .image (by rw [Stmt.renumber_counting])

theorem ifStmt_parallel (h : InnerParallel f n i i') (j : Nat) (hj : j < n) :
    Parallel f j (Image (Stmt.renumber f)) (ifStmt i) (ifStmt i') := by
  refine (expect_parallel _ _).bind fun k _ _ hk _ => ?_
  refine (expression_image (h.mono (by omega))).bind ?_
  rintro k cond _ hk rfl
  refine (expect_parallel _ _).bind fun k _ _ hk _ => ?_
  refine (h.statement k (by omega)).bind ?_
  rintro k thenBranch _ hk ⟨-, rfl⟩
  refine (after?_parallel .else_ fun l hl => (h.statement l (by omega)).imp fun _ _ _ _ hab => hab.2).bind ?_
  rintro _ elseBranch _ - rfl
  exact .image (by rw [Stmt.renumber_ifElse])

theorem whileStmt_parallel (h : InnerParallel f n i i') (j : Nat) (hj : j < n) :
    Parallel f j (Image (Stmt.renumber f)) (whileStmt i) (whileStmt i') := by
  refine (expect_parallel _ _).bind fun k _ _ hk _ => ?_
  refine (expression_image (h.mono (by omega))).bind ?_
  rintro k cond _ hk rfl
  refine (expect_parallel _ _).bind fun k _ _ hk _ => ?_
  refine (h.statement k (by omega)).bind ?_
  rintro _ body _ - ⟨-, rfl⟩
  exact .image (by simp [Stmt.renumber])

theorem printStmt_parallel (h : InnerParallel f n i i') :
    Parallel f n (Image (Stmt.renumber f)) (printStmt i) (printStmt i') := by
  refine (expression_image h).bind ?_
  rintro _ e _ - rfl
  exact (expect_parallel _ _).bind fun _ _ _ _ _ => .image (by simp [Stmt.renumber])

theorem checkReturn_parallel (t : Token) :
    Parallel f n (fun _ _ _ => True) (checkReturn t) (checkReturn (t.renumber f)) := by
  refine context_parallel.bind ?_
  rintro j _ c - rfl
  cases c.functions with
  | nil => exact reportAt_parallel t _
  | cons kind outer => exact .pure fun _ _ => trivial

theorem returnStmt_parallel (h : InnerParallel f n i i') (t : Token) :
    Parallel f n (Image (Stmt.renumber f)) (returnStmt i t) (returnStmt i' (t.renumber f)) := by
  refine (checkReturn_parallel t).bind fun j _ _ hj _ => ?_
  refine (unless?_parallel _ (expression_image (h.mono hj))).bind ?_
  rintro _ value _ - rfl
  exact (expect_parallel _ _).bind fun _ _ _ _ _ => .image (by simp [Stmt.renumber])

theorem statementFrom_parallel (h : InnerParallel f n i i') (t : Token) :
    Option.Rel (fun p q => ∀ j < n, Parallel f j (Image (Stmt.renumber f)) p q)
      (statementFrom i t) (statementFrom i' (t.renumber f)) := by
  unfold statementFrom
  rw [Token.renumber_kind]
  cases t.kind with
  | for_ => exact .some fun j hj => forStmt_parallel h j hj
  | if_ => exact .some fun j hj => ifStmt_parallel h j hj
  | print_ => exact .some fun j hj => printStmt_parallel (h.mono (by omega))
  | return_ => exact .some fun j hj => returnStmt_parallel (h.mono (by omega)) t
  | while_ => exact .some fun j hj => whileStmt_parallel h j hj
  | leftBrace =>
    exact .some fun j hj => (block_parallel h j hj).map fun _ body _ _ hab => by
      rw [hab]
      show Stmt.block _ = (Stmt.block body).renumber f
      simp [Stmt.renumber]
  | _ => exact .none

theorem statement_parallel (h : InnerParallel f n i i') :
    Parallel f n (Shorter n (Stmt.renumber f)) (statement i) (statement i') := by
  refine (take?_parallel (statementFrom_parallel h)).bind ?_
  rintro j _ _ hj (⟨hlt, hp⟩ | _)
  · exact (hp j hlt).imp fun k _ _ hk hab => ⟨by omega, hab⟩
  · exact (expressionStmt_parallel (h.mono hj)).imp fun k _ _ hk hab => ⟨by omega, hab.2⟩

theorem declarationFrom_parallel (h : InnerParallel f n i i') (t : Token) :
    Option.Rel (fun p q => ∀ j < n, Parallel f j (Image (Stmt.renumber f)) p q)
      (declarationFrom i t) (declarationFrom i' (t.renumber f)) := by
  unfold declarationFrom
  rw [Token.renumber_kind]
  cases t.kind with
  | class_ => exact .some fun j hj => classDecl_parallel (h.mono (by omega))
  | fun_ =>
    exact .some fun j hj =>
      (function_parallel (h.mono (by omega)) _).map fun _ d _ _ hab => by
        rw [hab.2]
        show Stmt.function _ = (Stmt.function d).renumber f
        simp [Stmt.renumber]
  | var_ => exact .some fun j hj => varDecl_parallel (h.mono (by omega))
  | _ => exact .none

theorem plainDeclaration_parallel (h : InnerParallel f n i i') :
    Parallel f n (Shorter n (Stmt.renumber f)) (plainDeclaration i) (plainDeclaration i') := by
  refine (take?_parallel (declarationFrom_parallel h)).bind ?_
  rintro j _ _ hj (⟨hlt, hp⟩ | _)
  · exact (hp j hlt).imp fun k _ _ hk hab => ⟨by omega, hab⟩
  · exact (statement_parallel (h.mono hj)).imp fun k _ _ hk hab => ⟨by omega, hab.2⟩

/-- A declaration uses up a token if there is one, whether it is read or skipped. -/
theorem declaration_parallel (h : InnerParallel f n i i') :
    Parallel f n (fun j a b => (0 < n → j < n) ∧ b = a.map (Stmt.renumber f)) (declaration i) (declaration i') :=
  recovering_parallel (plainDeclaration_parallel h)

/-! ## All bounds are alike -/

/-- Bounds above the number of tokens left make no difference. -/
theorem inner_parallel (f : Nat → Nat) (n : Nat) : ∀ b b', n < b → n < b' →
    InnerParallel f n (inner b) (inner b') := by
  induction n using Nat.strongRecOn with
  | ind n ih =>
    intro b b' hb hb'
    obtain ⟨b, rfl⟩ : ∃ k, b = k + 1 := ⟨b - 1, by omega⟩
    obtain ⟨b', rfl⟩ : ∃ k, b' = k + 1 := ⟨b' - 1, by omega⟩
    have hin : ∀ j < n, InnerParallel f j (inner b) (inner b') := fun j hj => ih j hj b b' (by omega) (by omega)
    exact {
      bound := hb
      bound' := hb'
      expression := fun j hj => expression_parallel (hin j hj)
      unary := fun j hj => unary_parallel (hin j hj)
      statement := fun j hj => statement_parallel (hin j hj)
      declaration := fun j hj => declaration_parallel (hin j hj) }

theorem program_parallel (n : Nat) {b b' : Nat} (hb : n < b) (hb' : n < b') : ∀ c c', n < c → n < c' →
    Parallel f n (fun j x y => j = 0 ∧ y = x.map (Stmt.renumber f)) (program (inner b) c) (program (inner b') c') := by
  induction n using Nat.strongRecOn with
  | ind n ih =>
    intro c c' hc hc'
    obtain ⟨c, rfl⟩ : ∃ k, c = k + 1 := ⟨c - 1, by omega⟩
    obtain ⟨c', rfl⟩ : ∃ k, c' = k + 1 := ⟨c' - 1, by omega⟩
    simp only [program]
    refine atEnd_parallel.bind ?_
    rintro j _ ended hj ⟨rfl, hend⟩
    cases ended with
    | true => exact .pure fun l hl => ⟨by have := hend.1 rfl; omega, rfl⟩
    | false =>
      have hpos : 0 < j := Nat.pos_of_ne_zero fun h => by simpa using hend.2 h
      refine (declaration_parallel (inner_parallel f j b b' (by omega) (by omega))).bind ?_
      rintro k first _ hk ⟨hlt, rfl⟩
      have hlt := hlt hpos
      refine (ih k (by omega) (by omega) (by omega) c c' (by omega) (by omega)).bind ?_
      rintro m rest _ - ⟨rfl, rfl⟩
      exact .pure fun l hl => ⟨by omega, by cases first <;> simp⟩

end Lox.Parser
