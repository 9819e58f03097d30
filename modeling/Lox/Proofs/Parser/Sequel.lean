/-
  Lox.Proofs.Parser.Sequel — every phrase of the language, read from a text and from the same
  text with more behind it (`Junction.Follows`). It goes through the phrases in the order of their
  definitions and closes the knot at `inner_follows`. The bounds for the longer text are larger
  by its length, so that inside any phrase it can still be read to its end.

  For whole programs: declarations behind a text are parsed as if they stood alone, unless
  the text makes a report at its end (`parse_sequel`); then they are lost (`parse_swallowed`).
-/

import Lox.Proofs.Grammar.Append
import Lox.Proofs.Parser.Junction

namespace Lox.Parser

namespace Junction

variable {j : Junction}

/-- How phrases inside the one at hand are read. -/
structure InnerFollows (j : Junction) (i i' : Inner) : Prop where
  bound : i'.bound = i.bound + (j.more.length + 2)
  expression : j.Follows false false i.expression i'.expression
  unary : j.Follows false false i.unary i'.unary
  statement : j.Follows true false i.statement i'.statement
  declaration : ∀ s : ParserState, s.rest <:+ j.tokens → s.rest ≠ [] →
    j.Alike false (i.declaration s) (i'.declaration (j.extend s)) ∨ Spent (i.declaration s) (i'.declaration (j.extend s))
  /-- What stands behind the junction can be read to the end anywhere. -/
  reads : ∀ (n : Nat) (s : ParserState), j.more.length < n → s.rest = j.more →
    ∃ body s' reports, declarations i' n s = .read body s' reports ∧ s'.rest = []

variable {i i' : Inner}

/-! ## Expressions -/

theorem level_starts {level : Level} (hl : level ∈ levels) {kind : TokenKind} (h : startsStatement kind = true) :
    level kind = none := by
  simp only [levels, List.mem_cons, List.not_mem_nil, or_false] at hl
  rcases hl with rfl | rfl | rfl | rfl | rfl | rfl <;> cases kind <;> first | rfl | cases h

theorem operands_follows {operand operand' : Parser Expr} (ho : j.Follows false false operand operand') {level : Level}
    (hl : level ∈ levels) (n n' : Nat) (left : Expr) :
    j.Follows false false (operands operand level n left) (operands operand' level n' left) := by
  induction n generalizing n' left with
  | zero => exact .exhausted
  | succ n ih =>
    cases n' with
    | zero => exact fun _ _ _ => .exhausted'
    | succ n' =>
      refine .select (.inr ?_) ?_ (.pure left)
      · intro t ht
        rw [level_starts hl ht]
        rfl
      · intro t _ combine _
        exact Follows.anywhere (ho.bind fun right => ih n' (combine left right))

theorem binary_follows {tightest tightest' : Parser Expr} (h : j.Follows false false tightest tightest') (n n' : Nat) :
    ∀ {ls : List Level}, ls ⊆ levels → j.Follows false false (binary n tightest ls) (binary n' tightest' ls)
  | [], _ => h
  | level :: tighter, hls => by
    have htighter := binary_follows h n n' (List.subset_of_cons_subset hls)
    exact htighter.bind fun left => operands_follows htighter (hls List.mem_cons_self) n n' left

theorem arguments_follows (hi : j.InnerFollows i i') (n n' count : Nat) :
    j.Follows false false (arguments i n count) (arguments i' n' count) := by
  induction n generalizing n' count with
  | zero => exact .exhausted
  | succ n ih =>
    cases n' with
    | zero => exact fun _ _ _ => .exhausted'
    | succ n' =>
      refine (Follows.limit count _).bind fun _ => hi.expression.bind fun first => .accept (.inr rfl) ?_ (.pure [first])
      exact Follows.anywhere ((ih n' (count + 1)).bind fun rest => .pure (first :: rest))

theorem finishCall_follows (hi : j.InnerFollows i i') (callee : Expr) :
    j.Follows false false (finishCall i callee) (finishCall i' callee) :=
  (Follows.listed (arguments_follows hi _ _ 0)).bind fun _ => .expect _ rfl fun _ _ => (Follows.pure _).unready.anywhere

theorem checkThis_follows {t : Token} (ht : t ∈ j.tokens) : j.Follows false false (checkThis t) (checkThis t) := by
  refine .context fun c => ?_
  cases c.enclosingClass with
  | outside => exact .reportAt ht _
  | base | derived => exact .pure ()

theorem checkSuper_follows {t : Token} (ht : t ∈ j.tokens) : j.Follows false false (checkSuper t) (checkSuper t) := by
  refine .context fun c => ?_
  cases c.enclosingClass with
  | outside | base => exact .reportAt ht _
  | derived => exact .pure ()

theorem superMethod_follows {t : Token} (ht : t ∈ j.tokens) : j.Follows false false (superMethod t) (superMethod t) :=
  (checkSuper_follows ht).bind fun _ => .expect _ rfl fun _ _ => .expectName _ fun _ => (Follows.pure _).unready

theorem group_follows (hi : j.InnerFollows i i') : j.Follows false false (group i) (group i') :=
  hi.expression.bind fun _ => .expect _ rfl fun _ _ => (Follows.pure _).unready.anywhere

theorem primary_follows (hi : j.InnerFollows i i') : j.Follows false false (primary i) (primary i') := by
  refine .take? ?_ (.inr ?_) ?_ (.reject _)
  · intro t
    unfold primaryFrom
    split <;> simp only [Option.isSome_some, Option.isSome_none]
  · intro t ht
    unfold primaryFrom
    revert ht
    cases t.kind <;> first | exact fun _ => rfl | nofun
  · intro t ht p p' hp hp'
    refine Follows.anywhere ?_
    unfold primaryFrom at hp hp'
    split at hp
    case h_10 => cases hp
    all_goals
      rename_i hkind
      rw [hkind] at hp'
      cases hp
      cases hp'
    · exact .pure _
    · exact .pure _
    · exact .pure _
    · exact .pure _
    · exact .pure _
    · exact superMethod_follows ht
    · exact (checkThis_follows ht).bind fun _ => .pure _
    · exact .pure _
    · exact group_follows hi

theorem accesses_follows (hi : j.InnerFollows i i') (n n' : Nat) (e : Expr) :
    j.Follows false false (accesses i n e) (accesses i' n' e) := by
  induction n generalizing n' e with
  | zero => exact .exhausted
  | succ n ih =>
    cases n' with
    | zero => exact fun _ _ _ => .exhausted'
    | succ n' =>
      refine .accept (.inr rfl) ?_ (.accept (.inr rfl) ?_ (.pure e))
      · exact Follows.anywhere ((finishCall_follows hi e).bind fun e => ih n' e)
      · exact .expectName _ fun name => (ih n' (.get e name)).anywhere

theorem unary_follows (hi : j.InnerFollows i i') : j.Follows false false (unary i) (unary i') := by
  refine .select (.inr ?_) ?_ ((primary_follows hi).bind fun e => accesses_follows hi _ _ e)
  · intro t ht
    revert ht
    cases t.kind <;> first | exact fun _ => rfl | nofun
  · intro t _ apply _
    exact Follows.anywhere (hi.unary.bind fun operand => .pure (apply operand))

theorem expression_follows (hi : j.InnerFollows i i') : j.Follows false false (expression i) (expression i') := by
  refine (binary_follows (unary_follows hi) _ _ (List.Subset.refl _)).bind fun left => .accept? (.inr rfl) ?_ (.pure left)
  intro equal hequal
  refine Follows.anywhere (hi.expression.bind fun value => ?_)
  cases assignTo? value left with
  | some assignment => exact .pure _
  | none => exact (Follows.reportAt hequal _).bind fun _ => .pure _

/-! ## Bodies -/

theorem declarations_repeats (i : Inner) :
    Repeats i.declaration (fun first rest => first.toList ++ rest) (declarations i) := ⟨rfl, fun _ => rfl⟩

theorem methods_repeats (i : Inner) : Repeats (function i .method) (· :: ·) (methods i) := ⟨rfl, fun _ => rfl⟩

theorem block_follows (hi : j.InnerFollows i i') : j.Follows false false (block i) (block i') := by
  refine Follows.body (fun s hs => ?_) fun _ _ => .pure _
  rw [hi.bound]
  refine (declarations_repeats i).follows (declarations_repeats i') hi.declaration (fun n s hn hend => .inr ?_) _ hs
  exact hi.reads n (j.extend s) (by omega) (by rw [extend_rest, hend, List.nil_append])

theorem parameters_follows (n n' count : Nat) : j.Follows false false (parameters n count) (parameters n' count) := by
  induction n generalizing n' count with
  | zero => exact .exhausted
  | succ n ih =>
    cases n' with
    | zero => exact fun _ _ _ => .exhausted'
    | succ n' =>
      refine (Follows.limit count _).bind fun _ => .expectName _ fun first => .accept (.inr rfl) ?_ (Follows.pure [first]).unready
      exact Follows.anywhere ((ih n' (count + 1)).bind fun rest => .pure (first :: rest))

theorem function_follows (hi : j.InnerFollows i i') (kind : FunctionKind) :
    j.Follows false false (function i kind) (function i' kind) := by
  refine .expectName _ fun name => Follows.anywhere (.inFunction _ ?_)
  refine .expect _ rfl fun _ _ => Follows.anywhere ((Follows.listed (parameters_follows _ _ 0)).bind fun params => ?_)
  exact .expect _ rfl fun _ _ => .expect _ rfl fun _ _ => Follows.anywhere ((block_follows hi).bind fun _ => .pure _)

/-- No method starts like a statement. -/
theorem methods_struck {n : Nat} {s : ParserState} (hn : 0 < n) (h : s.rest = []) : j.Struck (methods i n (j.extend s)) := by
  obtain ⟨n, rfl⟩ : ∃ k, n = k + 1 := ⟨n - 1, by omega⟩
  obtain ⟨t, rest, hnext, ht, hstart⟩ := next_of_end (j := j) h
  have hother : ∀ kind, startsStatement kind = false → t.kind ≠ kind := by
    rintro _ hkind rfl
    cases hkind.symm.trans hstart
  have haccept : accept? .identifier (j.extend s) = .read none (j.extend s) [] := by
    simp only [accept?, take?, hnext, hother .identifier rfl, if_false]
  have hname : expectName FunctionKind.method.missingName (j.extend s) =
      .rejected (j.extend s).tallied [] (faultHere .expectedMethodName (j.extend s)) := by
    rw [expectName, bind_run, expect, bind_read haccept]
    rfl
  have hgo : (j.extend s).rest.head?.all (·.kind == .rightBrace) = false := by
    rw [hnext, List.head?_cons, Option.all_some, beq_eq_false_iff_ne]
    exact hother .rightBrace rfl
  rw [(methods_repeats i).cons hgo, bind_run, function, bind_run, hname]
  exact ⟨_, List.mem_singleton_self _, faultHere_among _ hnext ht⟩

theorem checkParent_follows (name : Name) {t : Token} (ht : t ∈ j.tokens) :
    j.Follows false false (checkParent name t) (checkParent name t) := by
  unfold checkParent
  split
  · exact .reportAt ht _
  · exact .pure ()

theorem parentName_follows (name : Name) : j.Follows false false (parentName name) (parentName name) :=
  .expect _ rfl fun _ ht => Follows.anywhere ((checkParent_follows name ht).bind fun _ => .pure _)

theorem classDecl_follows (hi : j.InnerFollows i i') : j.Follows false false (classDecl i) (classDecl i') := by
  refine .expectName _ fun name => Follows.anywhere ?_
  refine (Follows.after? rfl (parentName_follows name).anywhere).bind fun parent => .inClass _ ?_
  refine .expect _ rfl fun _ _ => Follows.body (fun s hs => ?_) fun _ _ => .pure _
  rw [hi.bound]
  refine (methods_repeats i).follows (methods_repeats i') (fun s hs _ => .inl (function_follows hi .method s hs nofun)) ?_ _ hs
  exact fun n s hn hend => .inl (methods_struck (by omega) hend)

/-! ## Statements -/

theorem varDecl_follows (hi : j.InnerFollows i i') : j.Follows false false (varDecl i) (varDecl i') := by
  refine .expectName _ fun name => Follows.anywhere ?_
  exact (Follows.after? rfl (expression_follows hi).anywhere).bind fun _ => .expect _ rfl fun _ _ => .pure _

theorem expressionStmt_follows (hi : j.InnerFollows i i') : j.Follows false false (expressionStmt i) (expressionStmt i') :=
  (expression_follows hi).bind fun _ => .expect _ rfl fun _ _ => .pure _

theorem forInitializer_follows (hi : j.InnerFollows i i') : j.Follows true false (forInitializer i) (forInitializer i') := by
  refine .accept (.inr rfl) (.pure none) (.accept (.inl rfl) ?_ ?_)
  · exact Follows.anywhere ((varDecl_follows hi).map some)
  · exact Follows.anywhere ((expressionStmt_follows hi).map some)

theorem forStmt_follows (hi : j.InnerFollows i i') : j.Follows false false (forStmt i) (forStmt i') := by
  refine .expect _ rfl fun _ _ => (forInitializer_follows hi).bind fun initializer => ?_
  refine (Follows.unless? rfl (expression_follows hi)).bind fun condition => .expect _ rfl fun _ _ => ?_
  refine (Follows.unless? rfl (expression_follows hi)).bind fun increment => .expect _ rfl fun _ _ => ?_
  exact hi.statement.bind fun body => .pure _

theorem ifStmt_follows (hi : j.InnerFollows i i') : j.Follows false false (ifStmt i) (ifStmt i') := by
  refine .expect _ rfl fun _ _ => Follows.anywhere ((expression_follows hi).bind fun condition => .expect _ rfl fun _ _ => ?_)
  exact hi.statement.bind fun thenBranch => (Follows.after? rfl hi.statement).bind fun _ => .pure _

theorem whileStmt_follows (hi : j.InnerFollows i i') : j.Follows false false (whileStmt i) (whileStmt i') := by
  refine .expect _ rfl fun _ _ => Follows.anywhere ((expression_follows hi).bind fun condition => .expect _ rfl fun _ _ => ?_)
  exact hi.statement.bind fun body => .pure _

theorem printStmt_follows (hi : j.InnerFollows i i') : j.Follows false false (printStmt i) (printStmt i') :=
  (expression_follows hi).bind fun _ => .expect _ rfl fun _ _ => .pure _

theorem checkReturn_follows {t : Token} (ht : t ∈ j.tokens) : j.Follows false false (checkReturn t) (checkReturn t) := by
  refine .context fun c => ?_
  cases c.functions with
  | nil => exact .reportAt ht _
  | cons => exact .pure ()

theorem returnStmt_follows (hi : j.InnerFollows i i') {t : Token} (ht : t ∈ j.tokens) :
    j.Follows false false (returnStmt i t) (returnStmt i' t) := by
  refine (checkReturn_follows ht).bind fun _ => (Follows.unless? rfl (expression_follows hi)).bind fun _ => ?_
  exact .expect _ rfl fun _ _ => .pure _

theorem statement_follows (hi : j.InnerFollows i i') : j.Follows true false (statement i) (statement i') := by
  refine .take? ?_ (.inl rfl) ?_ (expressionStmt_follows hi).anywhere
  · intro t
    unfold statementFrom
    split <;> simp only [Option.isSome_some, Option.isSome_none]
  · intro t ht p p' hp hp'
    refine Follows.anywhere ?_
    unfold statementFrom at hp hp'
    split at hp
    case h_7 => cases hp
    all_goals
      rename_i hkind
      rw [hkind] at hp'
      cases hp
      cases hp'
    · exact forStmt_follows hi
    · exact ifStmt_follows hi
    · exact printStmt_follows hi
    · exact returnStmt_follows hi ht
    · exact whileStmt_follows hi
    · exact (block_follows hi).map _

theorem plainDeclaration_follows (hi : j.InnerFollows i i') :
    j.Follows true false (plainDeclaration i) (plainDeclaration i') := by
  refine .take? ?_ (.inl rfl) ?_ (statement_follows hi)
  · intro t
    unfold declarationFrom
    split <;> simp only [Option.isSome_some, Option.isSome_none]
  · intro t ht p p' hp hp'
    refine Follows.anywhere ?_
    unfold declarationFrom at hp hp'
    split at hp
    case h_4 => cases hp
    all_goals
      rename_i hkind
      rw [hkind] at hp'
      cases hp
      cases hp'
    · exact classDecl_follows hi
    · exact (function_follows hi .plain).map _
    · exact varDecl_follows hi

/-! ## Whole programs -/

open Grammar

/-- Declarations that make up the rest of a text are read to its end, whatever surrounds them. -/
theorem declarations_yields {ts : List Token} {ss : List Stmt} (h : Declarations true ts ss []) (n fuel : Nat)
    (s : ParserState) (hlen : ts.length ≤ n) (hf : ts.length < fuel) :
    Yields (declarations (inner (n + 2)) fuel) (s.at ts) ss (s.at [])
      (Stmt.AllValid s.context.inFunction s.context.enclosingClass ss) := by
  obtain ⟨fuel, rfl⟩ : ∃ k, fuel = k + 1 := ⟨fuel - 1, by omega⟩
  induction ss generalizing ts fuel with
  | nil =>
    cases h with
    | nil => exact Silent.yields (atBodyEnd_of_nil.seq silent_pure)
  | cons first ss ih =>
    cases h with
    | cons h h' =>
      have hlen' := h.headed.length_lt
      have yfirst := h.yields n s hlen fun _ => h'.not_else (by simp)
      obtain ⟨fuel, rfl⟩ : ∃ k, fuel = k + 1 := ⟨fuel - 1, by omega⟩
      have ymore := ih h' (by omega) fuel (by omega)
      exact (atBodyEnd_of_headed h.headed rfl).bind (yfirst.bind (ymore.then silent_pure))

theorem inner_bound (n : Nat) : (inner n).bound = n := by
  cases n <;> rfl

/-- With bounds that are larger by what stands behind the junction. -/
theorem inner_follows {ss : List Stmt} (h : Declarations true j.more ss []) (n : Nat) :
    j.InnerFollows (inner n) (inner (n + (j.more.length + 2))) := by
  have hreads : ∀ (n k : Nat) (s : ParserState), j.more.length < k → s.rest = j.more →
      ∃ body s' reports, declarations (inner (n + (j.more.length + 2))) k s = .read body s' reports ∧ s'.rest = [] := by
    intro n k s hk hrest
    obtain ⟨reports, hrun, -⟩ := declarations_yields h (n + j.more.length) k s (by omega) hk s.errors
    refine ⟨ss, (s.at []).counting (s.errors + reports.length), reports, ?_, rfl⟩
    rw [← hrun, ← hrest]
    rfl
  induction n with
  | zero =>
    exact ⟨by rw [inner_bound, inner_bound], .exhausted, .exhausted, .exhausted, fun _ _ _ => .inl .exhausted, hreads 0⟩
  | succ n ih =>
    have hbound : inner (n + 1 + (j.more.length + 2)) = inner (n + (j.more.length + 2) + 1) := by
      rw [Nat.add_right_comm]
    rw [hbound]
    exact ⟨Nat.add_right_comm _ _ _, expression_follows ih, unary_follows ih, statement_follows ih,
      fun s hs hne => (plainDeclaration_follows ih).recovering hs hne, by rw [← hbound]; exact hreads (n + 1)⟩

theorem parse_nil (endLine : Nat) : parse [] endLine = ⟨[], [], 0⟩ := rfl

/-- Either the declarations behind the junction are parsed as if they stood alone, or the text
alone makes a report at its end; then a token behind the junction is reported, or none of
them is kept. -/
theorem parse_follows {ss : List Stmt} (h : Declarations true j.more ss []) {tokens : List Token}
    (hs : tokens <:+ j.tokens) (line : Nat) :
    let alone := parse tokens line
    let longer := parse (tokens ++ j.more) j.endLine
    ((∀ r ∈ alone.reports, r.Among j.tokens) ∧
      longer.statements = alone.statements ++ (parse j.more j.endLine).statements ∧
      longer.reports = alone.reports ++ (parse j.more j.endLine).reports) ∨
    ((∃ r ∈ alone.reports, r.place = .atEnd) ∧
      ((∃ r ∈ longer.reports, r.Among j.more) ∨ longer.statements = alone.statements)) := by
  induction hn : tokens.length using Nat.strongRecOn generalizing tokens line with
  | ind n ih =>
    subst hn
    by_cases hne : tokens = []
    · subst hne
      exact .inl ⟨List.forall_mem_nil _, rfl, rfl⟩
    intro alone longer
    let s : ParserState := { rest := tokens, endLine := line }
    have hb : s.rest.length < tokens.length + 1 := Nat.lt_succ_self _
    have hb' : (j.extend s).rest.length < tokens.length + 1 + (j.more.length + 2) := by
      rw [extend_rest, List.length_append]
      omega
    have hne' : (j.extend s).rest ≠ [] := List.append_ne_nil_of_left_ne_nil hne _
    obtain ⟨first, s', reports, hrun, -, hlt⟩ := declaration_returns hb
    obtain ⟨first', s'', reports', hrun', -, -⟩ := declaration_returns hb'
    obtain ⟨hstatements, hreports⟩ := parse_step hb rfl hne hrun
    obtain ⟨hstatements', hreports'⟩ := parse_step hb' rfl hne' hrun'
    have hfollows := (plainDeclaration_follows (inner_follows h (tokens.length + 1))).recovering (s := s) hs hne
    rw [show recovering (plainDeclaration _) s = _ from hrun,
      show recovering (plainDeclaration _) (j.extend s) = _ from hrun'] at hfollows
    rcases hfollows with hfollows | ⟨_, _, _, _, _, hread, hread', hend, hend', r, hr, hplace⟩
    · cases hfollows with
      | read hs' _ hamong =>
        -- Both have read the same declaration, or skipped it.
        simp only [alone, longer]
        rw [show parse tokens line = parse s.rest s.endLine from rfl,
          show parse (tokens ++ j.more) j.endLine = parse (j.extend s).rest (j.extend s).endLine from rfl,
          hstatements, hreports, hstatements', hreports']
        rcases ih s'.rest.length (hlt hne) hs' s'.endLine rfl with ⟨hlater, hkept, hsame⟩ | ⟨⟨r, hr, hplace⟩, hlost⟩
        · refine .inl ⟨fun r hr => (List.mem_append.mp hr).elim (hamong r) (hlater r), ?_, ?_⟩
          · rw [List.append_assoc, ← hkept]
            rfl
          · rw [List.append_assoc, ← hsame]
            rfl
        · refine .inr ⟨⟨r, List.mem_append_right _ hr, hplace⟩, hlost.imp ?_ ?_⟩
          · intro ⟨r', hr', hmore⟩
            exact ⟨r', List.mem_append_right _ hr', hmore⟩
          · intro hkept
            rw [← hkept]
            rfl
      | struck hended hstruck =>
        obtain ⟨r, hr, hplace⟩ := hended
        obtain ⟨r', hr', hmore⟩ := hstruck
        refine .inr ⟨⟨r, ?_, hplace⟩, .inl ⟨r', ?_, hmore⟩⟩
        · exact hreports ▸ List.mem_append_left _ hr
        · exact hreports' ▸ List.mem_append_left _ hr'
    · -- Both have come to the end with it.
      cases hread
      cases hread'
      refine .inr ⟨⟨r, hreports ▸ List.mem_append_left _ hr, hplace⟩, .inr ?_⟩
      rw [hend, parse_nil] at hstatements
      rw [hend', parse_nil] at hstatements'
      exact hstatements'.trans hstatements.symm

end Junction

end Lox.Parser
