/-
  Lox.Proofs.Eval.Parts — the evaluations that a run is made of. `Part` lists which further
  evaluations each kind of evaluation starts, and in which machine; `Visits` follows them to
  any depth. Whatever a sound evaluation visits is sound (`Visits.sound`), so what is proved
  of sound evaluations holds wherever a run gets to.
-/

import Lox.Proofs.Eval.Safety

namespace Lox

open Eval

inductive Task where
  | expr (e : Expr)
  | exprs (es : List Expr)
  | call (callee : Value) (args : List Value)
  | closure (c : Closure) (args : List Value)
  | stmt (s : Stmt)
  | stmts (ss : List Stmt)
  | loop (condition : Expr) (body : Stmt)
  | program (ss : List Stmt)

/-- A task, the bound it is given, and the machine it starts in. -/
structure Evaluation where
  bound : Nat
  task : Task
  machine : Machine

/-- The evaluations that an evaluation starts by itself. Each is reached only if those before
it came to an end and called for it. -/
inductive Part : Evaluation → Evaluation → Prop
  | assigned {n name e m} : Part ⟨n + 1, .expr (.assign name e), m⟩ ⟨n, .expr e, m⟩
  | operand {n op line e m} : Part ⟨n + 1, .expr (.unary op line e), m⟩ ⟨n, .expr e, m⟩
  | left {n op line l r m} : Part ⟨n + 1, .expr (.binary op line l r), m⟩ ⟨n, .expr l, m⟩
  | right {n op line l r m v m'} : evalExpr n l m = (.ok v, m') →
      Part ⟨n + 1, .expr (.binary op line l r), m⟩ ⟨n, .expr r, m'⟩
  | decider {n op l r m} : Part ⟨n + 1, .expr (.logical op l r), m⟩ ⟨n, .expr l, m⟩
  | undecided {n op l r m v m'} : evalExpr n l m = (.ok v, m') → decides op v = false →
      Part ⟨n + 1, .expr (.logical op l r), m⟩ ⟨n, .expr r, m'⟩
  | callee {n f args line m} : Part ⟨n + 1, .expr (.call f args line), m⟩ ⟨n, .expr f, m⟩
  | arguments {n f args line m v m'} : evalExpr n f m = (.ok v, m') →
      Part ⟨n + 1, .expr (.call f args line), m⟩ ⟨n, .exprs args, m'⟩
  | invocation {n f args line m v m₁ vs m₂ m₃} : evalExpr n f m = (.ok v, m₁) → evalExprs n args m₁ = (.ok vs, m₂) →
      checkCall v vs.length line m₂ = (.ok (), m₃) →
      Part ⟨n + 1, .expr (.call f args line), m⟩ ⟨n, .call v vs, { m₃ with depth := m₃.depth + 1 }⟩
  | owner {n o name m} : Part ⟨n + 1, .expr (.get o name), m⟩ ⟨n, .expr o, m⟩
  | target {n o name e m} : Part ⟨n + 1, .expr (.set o name e), m⟩ ⟨n, .expr o, m⟩
  | fieldValue {n o name e m id m'} : evalExpr n o m = (.ok (.object id), m') →
      Part ⟨n + 1, .expr (.set o name e), m⟩ ⟨n, .expr e, m'⟩
  | grouped {n e m} : Part ⟨n + 1, .expr (.group e), m⟩ ⟨n, .expr e, m⟩
  | first {n e es m} : Part ⟨n + 1, .exprs (e :: es), m⟩ ⟨n, .expr e, m⟩
  | others {n e es m v m'} : evalExpr n e m = (.ok v, m') → Part ⟨n + 1, .exprs (e :: es), m⟩ ⟨n, .exprs es, m'⟩
  | function {n id args m c} : m.heap.functions[id]? = some c →
      Part ⟨n + 1, .call (.function id) args, m⟩ ⟨n, .closure c args, m⟩
  | initializer {n id args m object m₁ method c m₂} : newObject id m = (.ok object, m₁) →
      m₁.heap.method? id initializerName = some method → bindReceiver method object m₁ = (.ok c, m₂) →
      Part ⟨n + 1, .call (.classRef id) args, m⟩ ⟨n, .closure c args, m₂⟩
  | functionBody {n c args m scope m'} :
      newScope c.scope (Scopes.bindAll Table.empty c.declaration.parameters args) m = (.ok scope, m') →
      Part ⟨n + 1, .closure c args, m⟩ ⟨n, .stmts c.declaration.body, { m' with scope }⟩
  | discarded {n e m} : Part ⟨n + 1, .stmt (.expression e), m⟩ ⟨n, .expr e, m⟩
  | printed {n e m} : Part ⟨n + 1, .stmt (.print e), m⟩ ⟨n, .expr e, m⟩
  | initial {n name e m} : Part ⟨n + 1, .stmt (.var name (some e)), m⟩ ⟨n, .expr e, m⟩
  | block {n body m scope m'} : newScope m.scope Table.empty m = (.ok scope, m') →
      Part ⟨n + 1, .stmt (.block body), m⟩ ⟨n, .stmts body, { m' with scope }⟩
  | condition {n c t e m} : Part ⟨n + 1, .stmt (.ifElse c t e), m⟩ ⟨n, .expr c, m⟩
  | thenBranch {n c t e m v m'} : evalExpr n c m = (.ok v, m') → v.truthy = true →
      Part ⟨n + 1, .stmt (.ifElse c t e), m⟩ ⟨n, .stmt t, m'⟩
  | elseBranch {n c t e m v m'} : evalExpr n c m = (.ok v, m') → v.truthy = false →
      Part ⟨n + 1, .stmt (.ifElse c t (some e)), m⟩ ⟨n, .stmt e, m'⟩
  | loop {n c b m} : Part ⟨n + 1, .stmt (.loop c b), m⟩ ⟨n, .loop c b, m⟩
  | returned {n e m} : Part ⟨n + 1, .stmt (.ret (some e)), m⟩ ⟨n, .expr e, m⟩
  | statement {n s ss m} : Part ⟨n + 1, .stmts (s :: ss), m⟩ ⟨n, .stmt s, m⟩
  | statements {n s ss m m'} : execStmt n s m = (.ok .normal, m') →
      Part ⟨n + 1, .stmts (s :: ss), m⟩ ⟨n, .stmts ss, m'⟩
  | test {n c b m} : Part ⟨n + 1, .loop c b, m⟩ ⟨n, .expr c, m⟩
  | turn {n c b m v m'} : evalExpr n c m = (.ok v, m') → v.truthy = true → Part ⟨n + 1, .loop c b, m⟩ ⟨n, .stmt b, m'⟩
  | again {n c b m v m₁ m₂} : evalExpr n c m = (.ok v, m₁) → v.truthy = true → execStmt n b m₁ = (.ok .normal, m₂) →
      Part ⟨n + 1, .loop c b, m⟩ ⟨n, .loop c b, m₂⟩
  | topLevel {n s ss m} : Part ⟨n, .program (s :: ss), m⟩ ⟨n, .stmt s, m⟩
  | rest {n s ss m c m'} : execStmt n s m = (.ok c, m') → Part ⟨n, .program (s :: ss), m⟩ ⟨n, .program ss, m'⟩

inductive Visits (e : Evaluation) : Evaluation → Prop
  | here : Visits e e
  | part {e' e'' : Evaluation} : Visits e e' → Part e' e'' → Visits e e''

/-! ## Sound evaluations -/

def Evaluation.Sound : Evaluation → Prop
  | ⟨_, .expr e, m⟩ => ∃ enclosing, m.Stands enclosing ∧ e.Valid enclosing ∧ e.Plain
  | ⟨_, .exprs es, m⟩ => ∃ enclosing, m.Stands enclosing ∧ Expr.AllValid enclosing es ∧ Expr.AllPlain es
  | ⟨_, .call _ _, m⟩ => m.heap.Sound
  | ⟨_, .closure c _, m⟩ => m.heap.Sound ∧ c.Sound m.heap.scopes
  | ⟨_, .stmt s, m⟩ => ∃ inFunction enclosing, m.Stands enclosing ∧ s.Valid inFunction enclosing ∧ s.Plain
  | ⟨_, .stmts ss, m⟩ =>
    ∃ inFunction enclosing, m.Stands enclosing ∧ Stmt.AllValid inFunction enclosing ss ∧ Stmt.AllPlain ss
  | ⟨_, .loop c b, m⟩ => ∃ inFunction enclosing, m.Stands enclosing ∧ (c.Valid enclosing ∧ b.Valid inFunction enclosing) ∧
      c.Plain ∧ b.Plain
  | ⟨_, .program ss, m⟩ => m.Stands .outside ∧ ValidProgram ss ∧ Stmt.AllPlain ss

/-- Parts of a sound evaluation are sound: each starts where the ones before it ended. -/
theorem Part.sound {e e' : Evaluation} (hpart : Part e e') (h : e.Sound) : e'.Sound := by
  cases hpart with
  | assigned =>
    obtain ⟨c, hm, hv, hp⟩ := h
    exact ⟨c, hm, hv, hp.2⟩
  | operand => exact h
  | left =>
    obtain ⟨c, hm, hv, hp⟩ := h
    exact ⟨c, hm, hv.1, hp.1⟩
  | right hl =>
    obtain ⟨c, hm, hv, hp⟩ := h
    exact ⟨c, hm.later (((evaluates _).expr hm hv.1 hp.1).later hl).1, hv.2, hp.2⟩
  | decider =>
    obtain ⟨c, hm, hv, hp⟩ := h
    exact ⟨c, hm, hv.1, hp.1⟩
  | undecided hl _ =>
    obtain ⟨c, hm, hv, hp⟩ := h
    exact ⟨c, hm.later (((evaluates _).expr hm hv.1 hp.1).later hl).1, hv.2, hp.2⟩
  | callee =>
    obtain ⟨c, hm, hv, hp⟩ := h
    exact ⟨c, hm, hv.1, hp.1⟩
  | arguments hf =>
    obtain ⟨c, hm, hv, hp⟩ := h
    exact ⟨c, hm.later (((evaluates _).expr hm hv.1 hp.1).later hf).1, hv.2.1, hp.2⟩
  | invocation hf hargs hcheck =>
    obtain ⟨c, hm, hv, hp⟩ := h
    have hm₁ := hm.later (((evaluates _).expr hm hv.1 hp.1).later hf).1
    have hm₂ := hm₁.later (((evaluates _).exprs hm₁ hv.2.1 hp.2).later hargs).1
    exact ((checkCall_fine hm₂.sound _ _ _).later hcheck).1.sound
  | owner => exact h
  | target =>
    obtain ⟨c, hm, hv, hp⟩ := h
    exact ⟨c, hm, hv.1, hp.1⟩
  | fieldValue ho =>
    obtain ⟨c, hm, hv, hp⟩ := h
    exact ⟨c, hm.later (((evaluates _).expr hm hv.1 hp.1).later ho).1, hv.2, hp.2⟩
  | grouped => exact h
  | first =>
    obtain ⟨c, hm, hv, hp⟩ := h
    exact ⟨c, hm, hv.1, hp.1⟩
  | others he =>
    obtain ⟨c, hm, hv, hp⟩ := h
    exact ⟨c, hm.later (((evaluates _).expr hm hv.1 hp.1).later he).1, hv.2, hp.2⟩
  | function hc => exact ⟨h, h.functions _ _ hc⟩
  | initializer ho hmethod hbind =>
    have hm₁ := ((newObject_fine h _).later ho).1.sound
    obtain ⟨hlater, hc⟩ := (bindReceiver_fine hm₁ (hm₁.method? hmethod) _).later hbind
    exact ⟨hlater.sound, hc⟩
  | @functionBody _ c _ _ _ _ hscope =>
    obtain ⟨hm, enclosing, hserves, hv, hp⟩ := h
    have hbody := body_stands hm hserves hp hscope
    obtain ⟨⟨name, params, body⟩, outer, isInitializer⟩ := c
    exact ⟨true, enclosing, hbody, hv.2, hp.2.2⟩
  | discarded =>
    obtain ⟨_, c, hm, hv, hp⟩ := h
    exact ⟨c, hm, hv, hp⟩
  | printed =>
    obtain ⟨_, c, hm, hv, hp⟩ := h
    exact ⟨c, hm, hv, hp⟩
  | initial =>
    obtain ⟨_, c, hm, hv, hp⟩ := h
    exact ⟨c, hm, hv _ rfl, hp.2 _ rfl⟩
  | block hscope =>
    obtain ⟨inFunction, c, hm, hv, hp⟩ := h
    exact ⟨inFunction, c, block_stands hm hscope, hv, hp⟩
  | @condition _ _ _ e _ =>
    obtain ⟨_, c, hm, hv, hp⟩ := h
    cases e with
    | none => exact ⟨c, hm, hv.1, hp.1⟩
    | some _ => exact ⟨c, hm, hv.1, hp.1⟩
  | @thenBranch _ _ _ e _ _ _ hc _ =>
    obtain ⟨inFunction, c, hm, hv, hp⟩ := h
    cases e with
    | none => exact ⟨inFunction, c, hm.later (((evaluates _).expr hm hv.1 hp.1).later hc).1, hv.2, hp.2⟩
    | some _ => exact ⟨inFunction, c, hm.later (((evaluates _).expr hm hv.1 hp.1).later hc).1, hv.2.1, hp.2.1⟩
  | elseBranch hc _ =>
    obtain ⟨inFunction, c, hm, hv, hp⟩ := h
    exact ⟨inFunction, c, hm.later (((evaluates _).expr hm hv.1 hp.1).later hc).1, hv.2.2, hp.2.2⟩
  | loop => exact h
  | returned =>
    obtain ⟨_, c, hm, hv, hp⟩ := h
    exact ⟨c, hm, hv.2 _ rfl, hp _ rfl⟩
  | statement =>
    obtain ⟨inFunction, c, hm, hv, hp⟩ := h
    exact ⟨inFunction, c, hm, hv.1, hp.1⟩
  | statements hs =>
    obtain ⟨inFunction, c, hm, hv, hp⟩ := h
    exact ⟨inFunction, c, hm.later (((evaluates _).stmt hm hv.1 hp.1).later hs).1, hv.2, hp.2⟩
  | test =>
    obtain ⟨_, c, hm, hv, hp⟩ := h
    exact ⟨c, hm, hv.1, hp.1⟩
  | turn hc _ =>
    obtain ⟨inFunction, c, hm, hv, hp⟩ := h
    exact ⟨inFunction, c, hm.later (((evaluates _).expr hm hv.1 hp.1).later hc).1, hv.2, hp.2⟩
  | again hc _ hb =>
    obtain ⟨inFunction, c, hm, hv, hp⟩ := h
    have hm₁ := hm.later (((evaluates _).expr hm hv.1 hp.1).later hc).1
    exact ⟨inFunction, c, hm₁.later (((evaluates _).stmt hm₁ hv.2 hp.2).later hb).1, hv, hp⟩
  | topLevel => exact ⟨false, .outside, h.1, h.2.1.1, h.2.2.1⟩
  | rest hs => exact ⟨h.1.later (((evaluates _).stmt h.1 h.2.1.1 h.2.2.1).later hs).1, h.2.1.2, h.2.2.2⟩

theorem Visits.sound {e e' : Evaluation} (h : Visits e e') (he : e.Sound) : e'.Sound := by
  induction h with
  | here => exact he
  | part _ hpart ih => exact hpart.sound ih

end Lox
