/-
  Lox.Proofs.Parser.Reports — what a parser has to report. Whatever it is given, and however
  it leaves off, it reports faults of syntax only, each at a token or at the end of the text
  (`OnlySyntax`). It goes through the ways to build a parser, and through the phrases in the order
  of their definitions, up to whole programs (`parse_reports`).
-/

import Lox.Proofs.Parser.Parallel
import Lox.Tree.Parser.Statement

namespace Lox

namespace Report

def Lexical (r : Report) : Prop := ∃ fault, r.fault = .lexical fault

def Syntactic (r : Report) : Prop := ∃ fault, r.fault = .syntactic fault

end Report

def ParserOutcome.reports {α : Type} : ParserOutcome α → List Report
  | .read _ _ reports => reports
  | .rejected _ earlier reason => earlier ++ [reason]
  | .exhausted => []

namespace Parser

variable {α β : Type} {p : Parser α} {g : α → Parser β} {i : Inner}

/-- A fault of syntax, at a token or at the end. -/
def Placed (r : Report) : Prop := r.Syntactic ∧ r.place ≠ .unplaced

/-- In every state, `p` reports faults of syntax only. -/
def OnlySyntax (p : Parser α) : Prop := ∀ s, ∀ r ∈ (p s).reports, Placed r

/-! ## Composition -/

theorem OnlySyntax.of_silent (h : ∀ s, (p s).reports = []) : OnlySyntax p := by
  intro s r hr
  rw [h s] at hr
  cases hr

theorem OnlySyntax.pure {a : α} : OnlySyntax (pure a) := .of_silent fun _ => rfl

theorem exhausted_onlySyntax : OnlySyntax (exhausted : Parser α) := .of_silent fun _ => rfl

theorem reports_after {reports : List Report} {out : ParserOutcome α} {r : Report}
    (h : r ∈ (out.after reports).reports) : r ∈ reports ∨ r ∈ out.reports := by
  rcases out with ⟨a, s, later⟩ | ⟨s, later, reason⟩ | _
  · exact List.mem_append.mp h
  · simp only [ParserOutcome.after, ParserOutcome.reports, List.append_assoc] at h
    exact List.mem_append.mp h
  · cases h

/-- What follows matters only where the first part can come to. -/
theorem onlySyntax_bind (hp : OnlySyntax p) (hg : ∀ s a s' reports, p s = .read a s' reports → OnlySyntax (g a)) :
    OnlySyntax (p >>= g) := by
  intro s r hr
  have hp := hp s
  rw [bind_run] at hr
  rcases hrun : p s with ⟨a, s', reports⟩ | ⟨s', earlier, reason⟩ | _
  · rw [hrun] at hr hp
    rcases reports_after hr with hr | hr
    · exact hp r hr
    · exact hg s a s' reports hrun s' r hr
  · rw [hrun] at hr hp
    exact hp r hr
  · rw [hrun] at hr
    cases hr

theorem OnlySyntax.bind (hp : OnlySyntax p) (hg : ∀ a, OnlySyntax (g a)) : OnlySyntax (p >>= g) :=
  onlySyntax_bind hp fun _ a _ _ _ => hg a

theorem OnlySyntax.map {f : α → β} (hp : OnlySyntax p) : OnlySyntax (f <$> p) := hp.bind fun _ => .pure

/-! ## Single steps -/

theorem context_onlySyntax : OnlySyntax context := .of_silent fun _ => rfl

theorem atEnd_onlySyntax : OnlySyntax atEnd := .of_silent fun _ => rfl

theorem atBodyEnd_onlySyntax : OnlySyntax atBodyEnd := .of_silent fun _ => rfl

theorem check_onlySyntax (kind : TokenKind) : OnlySyntax (check kind) := .of_silent fun _ => rfl

theorem take?_onlySyntax (select : Token → Option α) : OnlySyntax (take? select) := by
  refine .of_silent fun s => ?_
  unfold take?
  split
  · rfl
  · split <;> rfl

/-- A token decides how to go on. -/
theorem take?_bind_onlySyntax {select : Token → Option α} {g : Option α → Parser β}
    (hsome : ∀ t a, select t = some a → OnlySyntax (g (some a))) (hnone : OnlySyntax (g none)) :
    OnlySyntax (take? select >>= g) := by
  refine onlySyntax_bind (take?_onlySyntax select) fun s o s' reports hrun => ?_
  unfold take? at hrun
  split at hrun
  · cases hrun
    exact hnone
  · rename_i t rest _
    split at hrun
    · rename_i a hselect
      cases hrun
      exact hsome t a hselect
    · cases hrun
      exact hnone

theorem accept?_onlySyntax (kind : TokenKind) : OnlySyntax (accept? kind) := take?_onlySyntax _

theorem accept_onlySyntax (kind : TokenKind) : OnlySyntax (accept kind) := (accept?_onlySyntax kind).map

theorem faultAt_placed (t : Token) (fault : SyntaxFault) : Placed (faultAt t fault) := ⟨⟨fault, rfl⟩, nofun⟩

theorem faultHere_placed (fault : SyntaxFault) (s : ParserState) : Placed (faultHere fault s) := by
  unfold faultHere
  split
  · exact faultAt_placed _ fault
  · exact ⟨⟨fault, rfl⟩, nofun⟩

theorem reportAt_onlySyntax (t : Token) (fault : SyntaxFault) : OnlySyntax (reportAt t fault) :=
  fun _ => List.forall_mem_singleton.mpr (faultAt_placed t fault)

theorem reportHere_onlySyntax (fault : SyntaxFault) : OnlySyntax (reportHere fault) :=
  fun s => List.forall_mem_singleton.mpr (faultHere_placed fault s)

theorem reject_onlySyntax (fault : SyntaxFault) : OnlySyntax (reject fault : Parser α) :=
  fun s => List.forall_mem_singleton.mpr (faultHere_placed fault s)

theorem expect_onlySyntax (kind : TokenKind) (fault : SyntaxFault) : OnlySyntax (expect kind fault) := by
  refine (accept?_onlySyntax kind).bind fun o => ?_
  cases o with
  | some t => exact .pure
  | none => exact reject_onlySyntax fault

theorem expectName_onlySyntax (fault : SyntaxFault) : OnlySyntax (expectName fault) :=
  (expect_onlySyntax _ fault).bind fun _ => .pure

theorem OnlySyntax.after? (hp : OnlySyntax p) (kind : TokenKind) : OnlySyntax (after? kind p) := by
  refine (accept_onlySyntax kind).bind fun b => ?_
  cases b with
  | true => exact hp.map
  | false => exact .pure

theorem OnlySyntax.unless? (hp : OnlySyntax p) (stop : TokenKind) : OnlySyntax (unless? stop p) := by
  refine (check_onlySyntax stop).bind fun b => ?_
  cases b with
  | true => exact .pure
  | false => exact hp.map

theorem OnlySyntax.listed {p : Parser (List α)} (hp : OnlySyntax p) : OnlySyntax (listed p) := (hp.unless? _).map

theorem limit_onlySyntax (count : Nat) (fault : SyntaxFault) : OnlySyntax (limit count fault) := by
  unfold limit
  split
  · exact reportHere_onlySyntax fault
  · exact .pure

theorem OnlySyntax.bracketed (hp : OnlySyntax p) (enter leave : Context → Context) :
    OnlySyntax (bracketed enter leave p) := by
  intro s r hr
  have hp := hp { s with context := enter s.context } r
  unfold Parser.bracketed at hr
  rcases hrun : p { s with context := enter s.context } with ⟨a, s', reports⟩ | ⟨s', earlier, reason⟩ | _
  · rw [hrun] at hr hp
    exact hp hr
  · rw [hrun] at hr hp
    exact hp hr
  · rw [hrun] at hr
    cases hr

theorem OnlySyntax.inClass (hp : OnlySyntax p) (enclosing : EnclosingClass) : OnlySyntax (inClass enclosing p) :=
  context_onlySyntax.bind fun _ => hp.bracketed _ _

theorem OnlySyntax.recovering {p : Parser Stmt} (hp : OnlySyntax p) : OnlySyntax (recovering p) := by
  intro s r hr
  have hp := hp s r
  unfold Parser.recovering at hr
  rcases hrun : p s with ⟨a, s', reports⟩ | ⟨s', earlier, reason⟩ | _
  · rw [hrun] at hr hp
    exact hp hr
  · rw [hrun] at hr hp
    exact hp hr
  · rw [hrun] at hr
    cases hr

/-! ## Expressions -/

structure Inner.OnlySyntax (i : Inner) : Prop where
  expression : Parser.OnlySyntax i.expression
  unary : Parser.OnlySyntax i.unary
  statement : Parser.OnlySyntax i.statement
  declaration : Parser.OnlySyntax i.declaration

theorem operands_onlySyntax {operand : Parser Expr} (hp : OnlySyntax operand) (level : Level) (n : Nat) (left : Expr) :
    OnlySyntax (operands operand level n left) := by
  induction n generalizing left with
  | zero => exact exhausted_onlySyntax
  | succ n ih =>
    refine (take?_onlySyntax _).bind fun o => ?_
    cases o with
    | none => exact .pure
    | some combine => exact hp.bind fun right => ih (combine left right)

theorem binary_onlySyntax {tightest : Parser Expr} (hp : OnlySyntax tightest) (bound : Nat) (levels : List Level) :
    OnlySyntax (binary bound tightest levels) := by
  induction levels with
  | nil => exact hp
  | cons level tighter ih => exact ih.bind fun left => operands_onlySyntax ih level bound left

theorem arguments_onlySyntax (h : i.OnlySyntax) (n count : Nat) : OnlySyntax (arguments i n count) := by
  induction n generalizing count with
  | zero => exact exhausted_onlySyntax
  | succ n ih =>
    refine (limit_onlySyntax count _).bind fun _ => h.expression.bind fun first => ?_
    refine (accept_onlySyntax _).bind fun b => ?_
    cases b with
    | true => exact (ih (count + 1)).bind fun _ => .pure
    | false => exact .pure

theorem finishCall_onlySyntax (h : i.OnlySyntax) (callee : Expr) : OnlySyntax (finishCall i callee) :=
  (arguments_onlySyntax h _ _).listed.bind fun _ => (expect_onlySyntax _ _).bind fun _ => .pure

theorem checkThis_onlySyntax (t : Token) : OnlySyntax (checkThis t) := by
  refine context_onlySyntax.bind fun c => ?_
  cases c.enclosingClass with
  | outside => exact reportAt_onlySyntax t _
  | _ => exact .pure

theorem checkSuper_onlySyntax (t : Token) : OnlySyntax (checkSuper t) := by
  refine context_onlySyntax.bind fun c => ?_
  cases c.enclosingClass with
  | derived => exact .pure
  | _ => exact reportAt_onlySyntax t _

theorem superMethod_onlySyntax (t : Token) : OnlySyntax (superMethod t) :=
  (checkSuper_onlySyntax t).bind fun _ => (expect_onlySyntax _ _).bind fun _ =>
    (expectName_onlySyntax _).bind fun _ => .pure

theorem group_onlySyntax (h : i.OnlySyntax) : OnlySyntax (group i) :=
  h.expression.bind fun _ => (expect_onlySyntax _ _).bind fun _ => .pure

theorem primaryFrom_onlySyntax (h : i.OnlySyntax) {t : Token} {p : Parser Expr} (hp : primaryFrom i t = some p) :
    OnlySyntax p := by
  unfold primaryFrom at hp
  split at hp <;> cases hp
  · exact .pure
  · exact .pure
  · exact .pure
  · exact .pure
  · exact .pure
  · exact superMethod_onlySyntax t
  · exact (checkThis_onlySyntax t).bind fun _ => .pure
  · exact .pure
  · exact group_onlySyntax h

theorem primary_onlySyntax (h : i.OnlySyntax) : OnlySyntax (primary i) :=
  take?_bind_onlySyntax (fun _ _ hp => primaryFrom_onlySyntax h hp) (reject_onlySyntax _)

theorem accesses_onlySyntax (h : i.OnlySyntax) (n : Nat) (e : Expr) : OnlySyntax (accesses i n e) := by
  induction n generalizing e with
  | zero => exact exhausted_onlySyntax
  | succ n ih =>
    refine (accept_onlySyntax _).bind fun isCall => ?_
    cases isCall with
    | true => exact (finishCall_onlySyntax h e).bind fun e' => ih e'
    | false =>
      refine (accept_onlySyntax _).bind fun isAccess => ?_
      cases isAccess with
      | true => exact (expectName_onlySyntax _).bind fun name => ih (.get e name)
      | false => exact .pure

theorem call_onlySyntax (h : i.OnlySyntax) : OnlySyntax (call i) :=
  (primary_onlySyntax h).bind fun e => accesses_onlySyntax h i.bound e

theorem unary_onlySyntax (h : i.OnlySyntax) : OnlySyntax (unary i) := by
  refine (take?_onlySyntax _).bind fun o => ?_
  cases o with
  | some apply => exact h.unary.bind fun _ => .pure
  | none => exact call_onlySyntax h

theorem expression_onlySyntax (h : i.OnlySyntax) : OnlySyntax (expression i) := by
  refine (binary_onlySyntax (unary_onlySyntax h) i.bound levels).bind fun left => ?_
  refine (accept?_onlySyntax _).bind fun o => ?_
  cases o with
  | none => exact .pure
  | some equal =>
    refine h.expression.bind fun value => ?_
    cases assignTo? value left with
    | some assignment => exact .pure
    | none => exact (reportAt_onlySyntax equal _).bind fun _ => .pure

/-! ## Statements and declarations -/

theorem declarations_onlySyntax (h : i.OnlySyntax) (n : Nat) : OnlySyntax (declarations i n) := by
  induction n with
  | zero => exact exhausted_onlySyntax
  | succ n ih =>
    refine atBodyEnd_onlySyntax.bind fun b => ?_
    cases b with
    | true => exact .pure
    | false => exact h.declaration.bind fun _ => ih.bind fun _ => .pure

theorem block_onlySyntax (h : i.OnlySyntax) : OnlySyntax (block i) :=
  (declarations_onlySyntax h i.bound).bind fun _ => (expect_onlySyntax _ _).bind fun _ => .pure

theorem parameters_onlySyntax (n count : Nat) : OnlySyntax (parameters n count) := by
  induction n generalizing count with
  | zero => exact exhausted_onlySyntax
  | succ n ih =>
    refine (limit_onlySyntax count _).bind fun _ => (expectName_onlySyntax _).bind fun first => ?_
    refine (accept_onlySyntax _).bind fun b => ?_
    cases b with
    | true => exact (ih (count + 1)).bind fun _ => .pure
    | false => exact .pure

theorem function_onlySyntax (h : i.OnlySyntax) (kind : FunctionKind) : OnlySyntax (function i kind) := by
  refine (expectName_onlySyntax _).bind fun name => OnlySyntax.bracketed ?_ _ _
  refine (expect_onlySyntax _ _).bind fun _ => (parameters_onlySyntax i.bound 0).listed.bind fun _ => ?_
  refine (expect_onlySyntax _ _).bind fun _ => (expect_onlySyntax _ _).bind fun _ => ?_
  exact (block_onlySyntax h).bind fun _ => .pure

theorem methods_onlySyntax (h : i.OnlySyntax) (n : Nat) : OnlySyntax (methods i n) := by
  induction n with
  | zero => exact exhausted_onlySyntax
  | succ n ih =>
    refine atBodyEnd_onlySyntax.bind fun b => ?_
    cases b with
    | true => exact .pure
    | false => exact (function_onlySyntax h .method).bind fun _ => ih.bind fun _ => .pure

theorem parentName_onlySyntax (name : Name) : OnlySyntax (parentName name) := by
  refine (expect_onlySyntax _ _).bind fun t => ?_
  have hcheck : OnlySyntax (checkParent name t) := by
    unfold checkParent
    split
    · exact reportAt_onlySyntax t _
    · exact .pure
  exact hcheck.bind fun _ => .pure

theorem classDecl_onlySyntax (h : i.OnlySyntax) : OnlySyntax (classDecl i) := by
  refine (expectName_onlySyntax _).bind fun name => ?_
  refine ((parentName_onlySyntax name).after? _).bind fun parent => OnlySyntax.inClass ?_ _
  refine (expect_onlySyntax _ _).bind fun _ => (methods_onlySyntax h i.bound).bind fun _ => ?_
  exact (expect_onlySyntax _ _).bind fun _ => .pure

theorem varDecl_onlySyntax (h : i.OnlySyntax) : OnlySyntax (varDecl i) := by
  refine (expectName_onlySyntax _).bind fun name => ?_
  exact ((expression_onlySyntax h).after? _).bind fun _ => (expect_onlySyntax _ _).bind fun _ => .pure

theorem expressionStmt_onlySyntax (h : i.OnlySyntax) : OnlySyntax (expressionStmt i) :=
  (expression_onlySyntax h).bind fun _ => (expect_onlySyntax _ _).bind fun _ => .pure

theorem forInitializer_onlySyntax (h : i.OnlySyntax) : OnlySyntax (forInitializer i) := by
  refine (accept_onlySyntax _).bind fun isEmpty => ?_
  cases isEmpty with
  | true => exact .pure
  | false =>
    refine (accept_onlySyntax _).bind fun isVar => ?_
    cases isVar with
    | true => exact (varDecl_onlySyntax h).map
    | false => exact (expressionStmt_onlySyntax h).map

theorem forStmt_onlySyntax (h : i.OnlySyntax) : OnlySyntax (forStmt i) := by
  refine (expect_onlySyntax _ _).bind fun _ => (forInitializer_onlySyntax h).bind fun _ => ?_
  refine ((expression_onlySyntax h).unless? _).bind fun _ => (expect_onlySyntax _ _).bind fun _ => ?_
  refine ((expression_onlySyntax h).unless? _).bind fun _ => (expect_onlySyntax _ _).bind fun _ => ?_
  exact h.statement.bind fun _ => .pure

theorem ifStmt_onlySyntax (h : i.OnlySyntax) : OnlySyntax (ifStmt i) := by
  refine (expect_onlySyntax _ _).bind fun _ => (expression_onlySyntax h).bind fun _ => ?_
  refine (expect_onlySyntax _ _).bind fun _ => h.statement.bind fun _ => ?_
  exact (h.statement.after? _).bind fun _ => .pure

theorem whileStmt_onlySyntax (h : i.OnlySyntax) : OnlySyntax (whileStmt i) := by
  refine (expect_onlySyntax _ _).bind fun _ => (expression_onlySyntax h).bind fun _ => ?_
  exact (expect_onlySyntax _ _).bind fun _ => h.statement.bind fun _ => .pure

theorem printStmt_onlySyntax (h : i.OnlySyntax) : OnlySyntax (printStmt i) :=
  (expression_onlySyntax h).bind fun _ => (expect_onlySyntax _ _).bind fun _ => .pure

theorem returnStmt_onlySyntax (h : i.OnlySyntax) (keyword : Token) : OnlySyntax (returnStmt i keyword) := by
  have hcheck : OnlySyntax (checkReturn keyword) := by
    refine context_onlySyntax.bind fun c => ?_
    cases c.functions with
    | nil => exact reportAt_onlySyntax keyword _
    | cons kind outer => exact .pure
  refine hcheck.bind fun _ => ((expression_onlySyntax h).unless? _).bind fun _ => ?_
  exact (expect_onlySyntax _ _).bind fun _ => .pure

theorem statementFrom_onlySyntax (h : i.OnlySyntax) {t : Token} {p : Parser Stmt} (hp : statementFrom i t = some p) :
    OnlySyntax p := by
  unfold statementFrom at hp
  split at hp <;> cases hp
  · exact forStmt_onlySyntax h
  · exact ifStmt_onlySyntax h
  · exact printStmt_onlySyntax h
  · exact returnStmt_onlySyntax h t
  · exact whileStmt_onlySyntax h
  · exact (block_onlySyntax h).map

theorem statement_onlySyntax (h : i.OnlySyntax) : OnlySyntax (statement i) :=
  take?_bind_onlySyntax (fun _ _ hp => statementFrom_onlySyntax h hp) (expressionStmt_onlySyntax h)

theorem declarationFrom_onlySyntax (h : i.OnlySyntax) {t : Token} {p : Parser Stmt} (hp : declarationFrom i t = some p) :
    OnlySyntax p := by
  unfold declarationFrom at hp
  split at hp <;> cases hp
  · exact classDecl_onlySyntax h
  · exact (function_onlySyntax h .plain).map
  · exact varDecl_onlySyntax h

theorem declaration_onlySyntax (h : i.OnlySyntax) : OnlySyntax (declaration i) :=
  (take?_bind_onlySyntax (fun _ _ hp => declarationFrom_onlySyntax h hp) (statement_onlySyntax h)).recovering

theorem inner_onlySyntax (n : Nat) : (inner n).OnlySyntax := by
  induction n with
  | zero => exact ⟨exhausted_onlySyntax, exhausted_onlySyntax, exhausted_onlySyntax, exhausted_onlySyntax⟩
  | succ n ih =>
    exact ⟨expression_onlySyntax ih, unary_onlySyntax ih, statement_onlySyntax ih, declaration_onlySyntax ih⟩

theorem program_onlySyntax (h : i.OnlySyntax) (n : Nat) : OnlySyntax (program i n) := by
  induction n with
  | zero => exact exhausted_onlySyntax
  | succ n ih =>
    refine atEnd_onlySyntax.bind fun b => ?_
    cases b with
    | true => exact .pure
    | false => exact (declaration_onlySyntax h).bind fun _ => ih.bind fun _ => .pure

end Parser

theorem parse_reports (tokens : List Token) (endLine : Nat) : ∀ r ∈ (parse tokens endLine).reports, Parser.Placed r := by
  have hprogram := Parser.program_onlySyntax (Parser.inner_onlySyntax (tokens.length + 1)) (tokens.length + 1)
    { rest := tokens, endLine }
  unfold parse
  dsimp only
  split
  · rename_i hrun
    rw [hrun] at hprogram
    exact hprogram
  · rename_i hrun
    rw [hrun] at hprogram
    exact hprogram
  · exact fun r hr => absurd hr List.not_mem_nil

end Lox
