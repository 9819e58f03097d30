/-
  Lox.Proofs.Eval.Bound — the bound decides whether a run comes to an end, and nothing else.
  With a larger bound, evaluation does what it did with a smaller one wherever that did not
  run out (`Below`); where it did, the larger bound prints what was printed, and maybe more
  (`Prolongs`). It holds of every step with the bound one larger, if it holds of the steps
  inside (`AllProlong.succ`), and so for all larger bounds (`execProgram_below`).
-/

import Lox.Proofs.Eval.Parallel

namespace Lox

theorem Heap.renumber_id (h : Heap) : h.renumber id = h := by
  have hclosure : Closure.renumber id = id := by
    funext c
    simp [Closure.renumber, FunctionDecl.renumber_id]
  have hclass : ClassInfo.renumber id = id := by
    funext info
    simp [ClassInfo.renumber, hclosure, Table.map]
  simp [Heap.renumber, hclosure, hclass]

namespace Eval

variable {α β : Type}

/-- On every machine, `x` runs out or `y` does the same. -/
def Below (x y : Eval α) : Prop := ∀ m, (x m).1 = .error .exhausted ∨ y m = x m

def Keeps (x : Eval α) : Prop := ∀ m, m.printed.toList <+: (x m).2.printed.toList

/-- Whatever is parallel to something does not look at what was printed before. -/
theorem keeps_of_parallel {x : Eval α} {y : Eval β} {g : α → β}
    (h : ∀ printed clock, Parallel ⟨id, printed, 0, clock⟩ g x y) : Keeps y := by
  intro m
  have hahead : ({ m with printed := #[] } : Machine).ahead ⟨id, m.printed, 0, m.clock⟩ = m := by
    simp [Machine.ahead, Heap.renumber_id]
  have hrun := h m.printed m.clock { m with printed := #[] } fun i => congrArg m.clock (Nat.zero_add i)
  rw [hahead] at hrun
  obtain ⟨a, m', -, -, hy⟩ | ⟨halt, m', -, -, hy⟩ := hrun.cases
  · rw [hy]
    exact ⟨m'.printed.toList, by simp [Machine.ahead]⟩
  · rw [hy]
    exact ⟨m'.printed.toList, by simp [Machine.ahead]⟩

/-- On every machine, `y` does what `x` does; if `x` runs out, `y` prints at least as much. -/
structure Prolongs (x y : Eval α) : Prop where
  keeps : Keeps y
  same : ∀ m, (x m).1 = .error .exhausted ∧ (x m).2.printed.toList <+: (y m).2.printed.toList ∨ y m = x m

/-- Whoever prints at least as much also does the same. -/
theorem Prolongs.below {x y : Eval α} (h : Prolongs x y) : Below x y := fun m => (h.same m).imp And.left id

theorem Prolongs.refl {x : Eval α} (h : Keeps x) : Prolongs x x := ⟨h, fun _ => .inr rfl⟩

theorem prolongs_exhausted {y : Eval α} (h : Keeps y) : Prolongs exhausted y := ⟨h, fun m => .inl ⟨rfl, h m⟩⟩

/-- A step that prints nothing. -/
theorem Prolongs.silent {x : Eval α} (h : ∀ m, (x m).2.printed = m.printed) : Prolongs x x :=
  .refl fun m => by simp [h m]

theorem Prolongs.pure (a : α) : Prolongs (pure a : Eval α) (pure a) := .silent fun _ => rfl

/-- A step that does not depend on the bound. -/
theorem Prolongs.step {x : Eval β} {y : Eval α} {g : β → α}
    (h : ∀ printed clock, Parallel ⟨id, printed, 0, clock⟩ g x y) : Prolongs y y :=
  .refl (keeps_of_parallel h)

theorem Keeps.bind {x : Eval α} {f : α → Eval β} (hx : Keeps x) (hf : ∀ a, Keeps (f a)) : Keeps (x >>= f) := by
  intro m
  have hm := hx m
  rcases hrun : x m with ⟨halt | a, m'⟩
  · rw [bind_error hrun]
    rw [hrun] at hm
    exact hm
  · rw [bind_ok hrun]
    rw [hrun] at hm
    exact hm.trans (hf a m')

/-- Steps in sequence: if the first runs out, nothing of the second is printed yet. -/
theorem Prolongs.bind {x y : Eval α} {f g : α → Eval β} (h : Prolongs x y) (hf : ∀ a, Prolongs (f a) (g a)) :
    Prolongs (x >>= f) (y >>= g) := by
  refine ⟨h.keeps.bind fun a => (hf a).keeps, fun m => ?_⟩
  rcases h.same m with ⟨hout, hprinted⟩ | hsame
  · -- The first has stopped, and the second goes on.
    rcases hx : x m with ⟨halt | a, m'⟩
    · rw [hx] at hout hprinted
      cases hout
      rw [bind_error hx]
      refine .inl ⟨rfl, hprinted.trans ?_⟩
      rcases hy : y m with ⟨halt | b, m''⟩
      · simp [bind_error hy]
      · rw [bind_ok hy]
        exact (hf b).keeps m''
    · rw [hx] at hout
      cases hout
  · rcases hx : x m with ⟨halt | a, m'⟩
    · rw [bind_error hx, bind_error (hsame.trans hx)]
      exact .inr rfl
    · rw [bind_ok hx, bind_ok (hsame.trans hx)]
      exact (hf a).same m'

theorem Prolongs.get {f g : Machine → Eval β} (h : ∀ m, Prolongs (f m) (g m)) :
    Prolongs (MonadState.get >>= f) (MonadState.get >>= g) :=
  ⟨fun m => (h m).keeps m, fun m => (h m).same m⟩

theorem Prolongs.inScope {x y : Eval α} (h : Prolongs x y) (scope : ScopeId) :
    Prolongs (inScope scope x) (inScope scope y) := by
  refine ⟨fun m => h.keeps { m with scope }, fun m => ?_⟩
  rcases h.same { m with scope } with hout | hsame
  · exact .inl hout
  · rcases hx : x { m with scope } with ⟨r, m'⟩
    rw [inScope_run hx, inScope_run (hsame.trans hx)]
    exact .inr rfl

theorem Prolongs.deeper {x y : Eval α} (h : Prolongs x y) : Prolongs (deeper x) (deeper y) := by
  refine ⟨fun m => h.keeps { m with depth := m.depth + 1 }, fun m => ?_⟩
  rcases h.same { m with depth := m.depth + 1 } with hout | hsame
  · exact .inl hout
  · rcases hx : x { m with depth := m.depth + 1 } with ⟨r, m'⟩
    rw [deeper_run hx, deeper_run (hsame.trans hx)]
    exact .inr rfl

/-! ## Steps -/

theorem callResult_prolongs (c : Closure) (completion : Completion) :
    Prolongs (callResult c completion) (callResult c completion) := by
  unfold callResult
  split
  · exact .get fun m => .pure _
  · cases completion with
    | normal => exact .pure _
    | returned value => exact .pure _

theorem superclass_prolongs (parent : Option Name) : Prolongs (superclass parent) (superclass parent) := by
  cases parent with
  | none => exact .pure _
  | some name =>
    refine (Prolongs.step fun _ _ => lookup_parallel name).bind fun value => ?_
    split
    · exact .pure _
    · exact .silent fun _ => rfl

theorem declareClass_prolongs (name : Bytes) (parent : Option ClassId) (methods : List FunctionDecl) :
    Prolongs (declareClass name parent methods) (declareClass name parent methods) := by
  cases parent with
  | none =>
    rw [declareClass_base]
    exact .silent fun _ => rfl
  | some id =>
    rw [declareClass_derived]
    exact .silent fun _ => rfl

/-- With bound `k`, everything does what it does with bound `n`. -/
structure AllProlong (n k : Nat) : Prop where
  expr : ∀ e, Prolongs (evalExpr n e) (evalExpr k e)
  exprs : ∀ es, Prolongs (evalExprs n es) (evalExprs k es)
  value : ∀ callee args, Prolongs (callValue n callee args) (callValue k callee args)
  closure : ∀ closure args, Prolongs (callClosure n closure args) (callClosure k closure args)
  stmt : ∀ s, Prolongs (execStmt n s) (execStmt k s)
  stmts : ∀ ss, Prolongs (execStmts n ss) (execStmts k ss)
  loop : ∀ condition body, Prolongs (execLoop n condition body) (execLoop k condition body)

namespace AllProlong

variable {n k : Nat}

/-- With no bound at all, everything runs out at once. -/
theorem zero (h : AllProlong k k) : AllProlong 0 k where
  expr e := by simp only [evalExpr]; exact prolongs_exhausted (h.expr e).keeps
  exprs es := by simp only [evalExprs]; exact prolongs_exhausted (h.exprs es).keeps
  value callee args := by simp only [callValue]; exact prolongs_exhausted (h.value callee args).keeps
  closure c args := by simp only [callClosure]; exact prolongs_exhausted (h.closure c args).keeps
  stmt s := by simp only [execStmt]; exact prolongs_exhausted (h.stmt s).keeps
  stmts ss := by simp only [execStmts]; exact prolongs_exhausted (h.stmts ss).keeps
  loop c b := by simp only [execLoop]; exact prolongs_exhausted (h.loop c b).keeps

variable (h : AllProlong n k)
include h

theorem evalExpr_succ (e : Expr) : Prolongs (evalExpr (n + 1) e) (evalExpr (k + 1) e) := by
  cases e with
  | literal v => exact .pure _
  | var name => exact .step fun _ _ => lookup_parallel name
  | assign name e =>
    exact (h.expr e).bind fun value => (Prolongs.step fun _ _ => assign_parallel name value).bind fun _ => .pure _
  | unary op line e => exact (h.expr e).bind fun value => .step fun _ _ => applyUnary_parallel op line value
  | binary op line l r =>
    refine (h.expr l).bind fun left => (h.expr r).bind fun right => ?_
    exact .step fun _ _ => applyBinary_parallel op line left right
  | logical op l r =>
    refine (h.expr l).bind fun left => ?_
    split
    · exact .pure _
    · exact h.expr r
  | call f args line =>
    refine (h.expr f).bind fun callee => (h.exprs args).bind fun values => ?_
    refine (Prolongs.step fun _ _ => checkCall_parallel callee values.length line).bind fun _ => ?_
    exact (h.value callee values).deeper
  | get o name =>
    refine (h.expr o).bind fun value => ?_
    refine (Prolongs.step fun _ _ => expectObject_parallel name.line _ value).bind fun id => ?_
    exact .step fun _ _ => getProperty_parallel id name
  | set o name e =>
    refine (h.expr o).bind fun value => ?_
    refine (Prolongs.step fun _ _ => expectObject_parallel name.line _ value).bind fun id => ?_
    refine (h.expr e).bind fun value' => ?_
    exact (Prolongs.step fun _ _ => setField_parallel id name.text value').bind fun _ => .pure _
  | this line => exact .step fun _ _ => lookup_parallel ⟨thisName, line⟩
  | super line method => exact .step fun _ _ => superMethod_parallel line method
  | group e => exact h.expr e

theorem evalExprs_succ (es : List Expr) : Prolongs (evalExprs (n + 1) es) (evalExprs (k + 1) es) := by
  cases es with
  | nil => exact .pure _
  | cons e es => exact (h.expr e).bind fun _ => (h.exprs es).bind fun _ => .pure _

theorem callValue_succ (callee : Value) (args : List Value) :
    Prolongs (callValue (n + 1) callee args) (callValue (k + 1) callee args) := by
  cases callee with
  | function id =>
    refine .get fun m => ?_
    split
    · exact h.closure _ args
    · exact .pure _
  | clock => exact .step fun _ _ => readClock_parallel
  | classRef id =>
    refine (Prolongs.step fun _ _ => newObject_parallel id).bind fun object => .get fun m => ?_
    split
    · rename_i method _
      refine (Prolongs.silent fun _ => rfl).bind fun closure => ?_
      exact (h.closure closure args).bind fun _ => .pure _
    · exact .pure _
  | _ => exact .pure _

theorem callClosure_succ (closure : Closure) (args : List Value) :
    Prolongs (callClosure (n + 1) closure args) (callClosure (k + 1) closure args) := by
  refine (Prolongs.step fun _ _ => newScope_parallel closure.scope _).bind fun scope => ?_
  exact ((h.stmts closure.declaration.body).inScope scope).bind (callResult_prolongs closure)

theorem execStmt_succ (s : Stmt) : Prolongs (execStmt (n + 1) s) (execStmt (k + 1) s) := by
  cases s with
  | expression e => exact (h.expr e).bind fun _ => .pure _
  | print e => exact (h.expr e).bind fun value => (Prolongs.step fun _ _ => print_parallel value).bind fun _ => .pure _
  | var name initializer =>
    have hdefine : ∀ value, Prolongs (define name.text value >>= fun _ => pure Completion.normal)
        (define name.text value >>= fun _ => pure Completion.normal) := fun value =>
      (Prolongs.step fun _ _ => define_parallel name.text value).bind fun _ => .pure _
    cases initializer with
    | none => exact hdefine .nil
    | some e => exact (h.expr e).bind hdefine
  | block body =>
    refine .get fun m => (Prolongs.step fun _ _ => newScope_parallel m.scope _).bind fun scope => ?_
    exact (h.stmts body).inScope scope
  | ifElse condition thenBranch elseBranch =>
    refine (h.expr condition).bind fun value => ?_
    split
    · exact h.stmt thenBranch
    · cases elseBranch with
      | none => exact .pure _
      | some e => exact h.stmt e
  | loop condition body => exact h.loop condition body
  | function declaration =>
    refine .get fun m => (Prolongs.silent fun _ => rfl).bind fun value => ?_
    exact (Prolongs.step fun _ _ => define_parallel declaration.name.text value).bind fun _ => .pure _
  | ret value =>
    cases value with
    | none => exact .pure _
    | some e => exact (h.expr e).bind fun _ => .pure _
  | classDecl name parent methods =>
    refine (superclass_prolongs parent).bind fun id => ?_
    exact (declareClass_prolongs name.text id methods).bind fun _ => .pure _

theorem execStmts_succ (ss : List Stmt) : Prolongs (execStmts (n + 1) ss) (execStmts (k + 1) ss) := by
  cases ss with
  | nil => exact .pure _
  | cons s rest =>
    refine (h.stmt s).bind fun completion => ?_
    cases completion with
    | returned value => exact .pure _
    | normal => exact h.stmts rest

theorem execLoop_succ (condition : Expr) (body : Stmt) :
    Prolongs (execLoop (n + 1) condition body) (execLoop (k + 1) condition body) := by
  refine (h.expr condition).bind fun value => ?_
  split
  · refine (h.stmt body).bind fun completion => ?_
    cases completion with
    | returned value => exact .pure _
    | normal => exact h.loop condition body
  · exact .pure _

theorem succ : AllProlong (n + 1) (k + 1) where
  expr := h.evalExpr_succ
  exprs := h.evalExprs_succ
  value := h.callValue_succ
  closure := h.callClosure_succ
  stmt := h.execStmt_succ
  stmts := h.execStmts_succ
  loop := h.execLoop_succ

end AllProlong

theorem allProlong_self (k : Nat) : AllProlong k k := by
  induction k with
  | zero =>
    have hkeeps : ∀ {α : Type}, Keeps (exhausted : Eval α) := fun _ => List.prefix_rfl
    exact ⟨fun _ => .refl hkeeps, fun _ => .refl hkeeps, fun _ _ => .refl hkeeps, fun _ _ => .refl hkeeps,
      fun _ => .refl hkeeps, fun _ => .refl hkeeps, fun _ _ => .refl hkeeps⟩
  | succ k ih => exact ih.succ

/-- A larger bound makes no difference to what has come to an end. -/
theorem allProlong {n k : Nat} (h : n ≤ k) : AllProlong n k := by
  induction n generalizing k with
  | zero => exact (allProlong_self k).zero
  | succ n ih =>
    cases k with
    | zero => exact absurd h (Nat.not_succ_le_zero n)
    | succ k => exact (ih (Nat.le_of_succ_le_succ h)).succ

end Eval

open Eval

/-- A larger bound keeps the answers of a program. -/
theorem execProgram_below {n k : Nat} (h : n ≤ k) (program : List Stmt) :
    Below (execProgram n program) (execProgram k program) := by
  have hprolongs : Prolongs (execProgram n program) (execProgram k program) := by
    induction program with
    | nil => exact .pure _
    | cons s rest ih => exact ((allProlong h).stmt s).bind fun _ => ih
  exact hprolongs.below

end Lox
