/-
  Lox.Proofs.Counting — what a counting loop means. `ForLoop.exec` says it directly: the
  initializer has a scope of its own, and condition, body and increment are run in it turn by
  turn. The tree that stands for such a loop has one more scope around body and increment in
  each turn. A body is a statement and not a declaration, so nothing is ever bound there, and
  the tree does what the loop means (`for_tree_keeps_meaning`).
-/

import Lox.Proofs.Eval.Bound
import Lox.Proofs.Eval.Together
import Lox.Proofs.StaticChecks

namespace Lox

open Eval

/-! ## Counting loops -/

def Eval.repeatWhile (goesOn : Nat → Eval Bool) (turn : Nat → Eval Completion) : Nat → Eval Completion
  | 0 => exhausted
  | n + 1 => do
    if ← goesOn n then
      match ← turn n with
      | .returned value => return .returned value
      | .normal => repeatWhile goesOn turn n
    else
      return .normal

structure ForLoop where
  initializer : Option Stmt
  condition : Option Expr
  increment : Option Expr
  body : Stmt

namespace ForLoop

def tree (f : ForLoop) : Stmt := .counting f.initializer f.condition f.increment f.body

def goesOn (f : ForLoop) (n : Nat) : Eval Bool :=
  match f.condition with
  | none => return true
  | some e => return (← evalExpr n e).truthy

def advance (f : ForLoop) (n : Nat) : Eval Unit :=
  match f.increment with
  | none => return ()
  | some e => do
    let _ ← evalExpr n e

def turn (f : ForLoop) (n : Nat) : Eval Completion := do
  match ← execStmt n f.body with
  | .returned value => return .returned value
  | .normal =>
    f.advance n
    return .normal

/-- All turns are made in the scope of the initializer, or else in the current one. -/
def exec (f : ForLoop) (n : Nat) : Eval Completion :=
  match f.initializer with
  | none => repeatWhile f.goesOn f.turn n
  | some s => do
    let scope ← newScope (← get).scope Table.empty
    inScope scope do
      let _ ← execStmt n s
      repeatWhile f.goesOn f.turn n

end ForLoop

namespace Grammar

/-- The rule for counting loops, with the loop that a derivation stands for. -/
inductive For (nearest : Bool) : Bool → List Token → ForLoop → List Token → Prop
  | mk {isOpen : Bool} {keyword opening semicolon closing : Token} {ts ts₁ ts₂ ts₃ rest : List Token}
      {init : Option Stmt} {cond inc : Option Expr} {body : Stmt} :
      keyword.kind = .for_ → opening.kind = .leftParen → ForInitializer ts init ts₁ →
      Optional Expression ts₁ cond (semicolon :: ts₂) → semicolon.kind = .semicolon →
      Optional Expression ts₂ inc (closing :: ts₃) → closing.kind = .rightParen →
      Statement nearest isOpen ts₃ body rest →
      For nearest isOpen (keyword :: opening :: ts) ⟨init, cond, inc, body⟩ rest

theorem For.initializer {nearest isOpen : Bool} {ts rest : List Token} {f : ForLoop} :
    For nearest isOpen ts f rest → ∃ ts₁ ts₂, ForInitializer ts₁ f.initializer ts₂
  | .mk _ _ hinit _ _ _ _ _ => ⟨_, _, hinit⟩

theorem For.statement {nearest isOpen : Bool} {ts rest : List Token} {f : ForLoop} :
    For nearest isOpen ts f rest → Statement nearest isOpen ts f.tree rest
  | .mk hk ho hinit hcond hsemi hinc hc hbody => .forLoop hk ho hinit hcond hsemi hinc hc hbody

theorem undeclaring_counting {init : Option Stmt} {cond inc : Option Expr} {body : Stmt} (h : body.Undeclaring) :
    (Stmt.counting init cond inc body).Undeclaring := by
  cases init with
  | some s => trivial
  | none =>
    cases inc with
    | some e => trivial
    | none => exact h

/-- A statement is no declaration. -/
theorem Statement.undeclaring {nearest isOpen : Bool} {ts rest : List Token} {s : Stmt} :
    Statement nearest isOpen ts s rest → s.Undeclaring
  | .expression (.mk _ _) => trivial
  | .forLoop _ _ _ _ _ _ _ hbody => undeclaring_counting hbody.undeclaring
  | .ifOnly _ _ _ _ hbody => hbody.undeclaring
  | .ifElse _ _ _ _ hbody _ _ helse => ⟨hbody.undeclaring, helse.undeclaring⟩
  | .print _ _ _ => trivial
  | .ret _ _ _ => trivial
  | .whileLoop _ _ _ _ hbody => hbody.undeclaring
  | .block _ _ _ => trivial

theorem For.undeclaring {nearest isOpen : Bool} {ts rest : List Token} {f : ForLoop} :
    For nearest isOpen ts f rest → f.body.Undeclaring
  | .mk _ _ _ _ _ _ _ hbody => hbody.undeclaring

end Grammar

/-- An initializer never returns. -/
theorem execStmt_initializer {ts rest : List Token} {s : Stmt} (h : Grammar.ForInitializer ts (some s) rest) (n : Nat)
    {α : Type} (next : Completion → Eval α) : execStmt n s >>= next = execStmt n s >>= fun _ => next .normal := by
  cases n with
  | zero => rfl
  | succ n =>
    cases h with
    | var h =>
      cases h with
      | mk =>
        rename_i init _ _ _ _
        cases init <;> simp [execStmt]
    | expression h =>
      cases h with
      | mk => simp [execStmt]

/-! ## Repeating -/

section

variable {goesOn goesOn' : Nat → Eval Bool} {turn turn' : Nat → Eval Completion}

/-- To pass on how a statement has ended is to do nothing. -/
theorem bind_pass (x : Eval Completion) :
    (x >>= fun completion => match completion with
      | .returned value => pure (.returned value)
      | .normal => pure .normal) = x := by
  have hpass : (fun completion => match completion with
      | .returned value => pure (.returned value)
      | .normal => pure .normal : Completion → Eval Completion) = pure := by
    funext completion
    cases completion <;> rfl
  rw [hpass, bind_pure]

/-- Loops of the program are repetitions. -/
theorem execLoop_eq (n : Nat) (e : Expr) (s : Stmt) :
    execLoop n e s = repeatWhile (fun n => return (← evalExpr n e).truthy) (fun n => execStmt n s) n := by
  induction n with
  | zero => rfl
  | succ n ih =>
    show (evalExpr n e >>= _) = ((evalExpr n e >>= fun value => pure value.truthy) >>= _)
    rw [bind_assoc]
    refine congrArg _ (funext fun value => ?_)
    rw [pure_bind]
    cases value.truthy with
    | false => rfl
    | true =>
      show (execStmt n s >>= _) = (execStmt n s >>= _)
      refine congrArg _ (funext fun completion => ?_)
      cases completion with
      | returned value => rfl
      | normal => exact ih

/-- Repetitions agree if their turns do. -/
theorem repeatWhile_together (hg : ∀ {n c m m'}, m.Collapses c m' → Together c (goesOn n) (goesOn' n) m m')
    (ht : ∀ {n c m m'}, m.Collapses c m' → Together c (turn n) (turn' n) m m') {c : Collapse} {m m' : Machine}
    (h : m.Collapses c m') (n : Nat) : Together c (repeatWhile goesOn turn n) (repeatWhile goesOn' turn' n) m m' := by
  induction n generalizing c m m' with
  | zero => exact .exhausted h
  | succ n ih =>
    refine (hg h).bind fun more m₁ m₁' c₁ _ h₁ => ?_
    cases more with
    | false => exact .pure h₁ Completion.normal
    | true =>
      refine (ht h₁).bind fun completion m₂ m₂' c₂ _ h₂ => ?_
      cases completion with
      | returned value => exact .pure h₂ (Completion.returned value)
      | normal => exact ih h₂

theorem repeatWhile_keeps (hg : ∀ n, Keeps (goesOn n)) (ht : ∀ n, Keeps (turn n)) (n : Nat) :
    Keeps (repeatWhile goesOn turn n) := by
  have hpure : ∀ completion : Completion, Keeps (pure completion) := fun _ _ => List.prefix_rfl
  induction n with
  | zero => exact fun _ => List.prefix_rfl
  | succ n ih =>
    refine (hg n).bind fun more => ?_
    cases more with
    | false => exact hpure .normal
    | true =>
      refine (ht n).bind fun completion => ?_
      cases completion with
      | returned value => exact hpure (.returned value)
      | normal => exact ih

/-- What holds of goings on and of turns with a bound that is `d` larger holds of the whole. -/
theorem repeatWhile_prolongs {d : Nat} (hg : ∀ {n k}, n + d ≤ k → Prolongs (goesOn n) (goesOn' k))
    (ht : ∀ {n k}, n + d ≤ k → Prolongs (turn n) (turn' k)) (hk : ∀ k, Keeps (repeatWhile goesOn' turn' k)) {n k : Nat}
    (h : n + d ≤ k) : Prolongs (repeatWhile goesOn turn n) (repeatWhile goesOn' turn' k) := by
  induction n generalizing k with
  | zero => exact prolongs_exhausted (hk k)
  | succ n ih =>
    obtain ⟨k, rfl⟩ : ∃ j, k = j + 1 := ⟨k - 1, by omega⟩
    have hle : n + d ≤ k := by omega
    refine (hg hle).bind fun more => ?_
    cases more with
    | false => exact .pure _
    | true =>
      refine (ht hle).bind fun completion => ?_
      cases completion with
      | returned value => exact .pure _
      | normal => exact ih hle

end

/-! ## The tree without the scopes of its turns -/

namespace ForLoop

variable (f : ForLoop)

def treeCondition : Expr := f.condition.getD (.literal (.bool true))

def treeGoesOn (n : Nat) : Eval Bool := return (← evalExpr n f.treeCondition).truthy

def treeBody : Stmt :=
  match f.increment with
  | some e => .block [f.body, .expression e]
  | none => f.body

/-- The same without the scope of the block. -/
def treeTurn (n : Nat) : Eval Completion :=
  match f.increment, n with
  | none, n => execStmt n f.body
  | some _, 0 => exhausted
  | some e, n + 1 => execStmts n [f.body, .expression e]

/-- The whole tree, but for these scopes. -/
def flat (n : Nat) : Eval Completion :=
  match f.initializer with
  | none => repeatWhile f.treeGoesOn f.treeTurn n
  | some s => do
    let scope ← newScope (← get).scope Table.empty
    inScope scope do
      let _ ← execStmt (n + 2) s
      repeatWhile f.treeGoesOn f.treeTurn n

/-- How much more the tree takes than the loop in it. -/
def lead : Nat := if f.initializer.isSome then 4 else 1

variable {f} {c : Collapse} {m m' : Machine}

theorem treeTurn_together (hf : f.body.Undeclaring) (h : m.Collapses c m') (n : Nat) :
    Together c (execStmt n f.treeBody) (f.treeTurn n) m m' := by
  obtain ⟨init, cond, inc, body⟩ := f
  cases inc with
  | none => exact (together n).stmt h fun _ => hf
  | some e =>
    cases n with
    | zero => exact .exhausted h
    | succ n =>
      refine .get (extraScope_together h fun m₁ c₁ h₁ => (together n).stmts h₁ fun _ s hs => ?_)
      rcases List.mem_cons.mp hs with rfl | hs
      · exact hf
      · rw [List.mem_singleton.mp hs]
        trivial

theorem treeLoop_together (hf : f.body.Undeclaring) (h : m.Collapses c m') (n : Nat) :
    Together c (execLoop n f.treeCondition f.treeBody) (repeatWhile f.treeGoesOn f.treeTurn n) m m' := by
  rw [execLoop_eq]
  refine repeatWhile_together (fun h' => ?_) (fun h' => treeTurn_together hf h' _) h n
  exact ((together _).expr h').bind fun value m₁ m₁' c₁ _ h₁ => .pure h₁ value.truthy

/-- A loop that is the last of some statements. -/
theorem execStmts_loop (n : Nat) (e : Expr) (s : Stmt) : execStmts (n + 2) [.loop e s] = execLoop n e s :=
  bind_pass (execLoop n e s)

theorem tree_of_none (h : f.initializer = none) : f.tree = .loop f.treeCondition f.treeBody := by
  obtain ⟨init, cond, inc, body⟩ := f
  cases h
  rfl

theorem tree_of_some {s : Stmt} (h : f.initializer = some s) :
    f.tree = .block [s, .loop f.treeCondition f.treeBody] := by
  obtain ⟨init, cond, inc, body⟩ := f
  cases h
  rfl

/-- The blocks that the parser adds make no difference but for scopes that bind nothing. -/
theorem flat_together {nearest isOpen : Bool} {ts rest : List Token} (hf : Grammar.For nearest isOpen ts f rest)
    (h : m.Collapses c m') (n : Nat) : Together c (execStmt (n + f.lead) f.tree) (f.flat n) m m' := by
  have hbody := hf.undeclaring
  obtain ⟨_, _, hinit⟩ := hf.initializer
  unfold flat lead
  cases hi : f.initializer with
  | none =>
    rw [tree_of_none hi]
    exact treeLoop_together hbody h n
  | some s =>
    rw [hi] at hinit
    have hseq : execStmts (n + 3) [s, .loop f.treeCondition f.treeBody] =
        execStmt (n + 2) s >>= fun _ => execLoop n f.treeCondition f.treeBody := by
      rw [← execStmts_loop]
      exact execStmt_initializer hinit (n + 2) _
    rw [tree_of_some hi]
    refine .get ?_
    show Together c (newScope m.scope Table.empty >>= fun scope =>
      inScope scope (execStmts (n + 3) [s, .loop f.treeCondition f.treeBody])) _ m m'
    rw [hseq]
    refine newScope_together h h.current h.scope _ fun id m₁ m₁' c₁ _ h₁ hid hkept => .inScope h₁ ?_
    refine ((together (n + 2)).stmt ?_ fun he => absurd he hkept).bind fun _ m₂ m₂' c₂ _ h₂ => ?_
    · exact ⟨h₁.heap, hid, rfl, h₁.depth, h₁.printed, h₁.clock, h₁.readings⟩
    · exact treeLoop_together hbody h₂ n

/-! ## Bounds -/

variable {n k : Nat}

theorem treeGoesOn_prolongs (h : n ≤ k) : Prolongs (f.treeGoesOn n) (f.goesOn k) := by
  obtain ⟨init, cond, inc, body⟩ := f
  cases cond with
  | some e => exact ((allProlong h).expr e).bind fun _ => .pure _
  | none =>
    cases n with
    | zero => exact prolongs_exhausted fun _ => List.prefix_rfl
    | succ n => exact .pure _

theorem goesOn_prolongs (h : n + 1 ≤ k) : Prolongs (f.goesOn n) (f.treeGoesOn k) := by
  obtain ⟨init, cond, inc, body⟩ := f
  obtain ⟨k, rfl⟩ : ∃ j, k = j + 1 := ⟨k - 1, by omega⟩
  cases cond with
  | some e => exact ((allProlong (by omega)).expr e).bind fun _ => .pure _
  | none => exact .pure _

theorem execStmts_expression (n : Nat) (e : Expr) :
    execStmts (n + 2) [.expression e] = evalExpr n e >>= fun _ => pure .normal := by
  simp [execStmts, execStmt]

/-- Without an increment, a turn is the body. -/
theorem turn_of_none (init : Option Stmt) (cond : Option Expr) (body : Stmt) (n : Nat) :
    turn ⟨init, cond, none, body⟩ n = execStmt n body :=
  bind_pass (execStmt n body)

theorem turn_of_some (init : Option Stmt) (cond : Option Expr) (e : Expr) (body : Stmt) (n : Nat) :
    turn ⟨init, cond, some e, body⟩ n = execStmt n body >>= fun completion => match completion with
      | .returned value => pure (.returned value)
      | .normal => evalExpr n e >>= fun _ => pure .normal := by
  simp only [turn, advance, bind_assoc, pure_bind]

/-- The increment is the last in its block, and has the less of the bound left. -/
theorem increment_prolongs (e : Expr) (h : n ≤ k) :
    Prolongs (execStmts n [.expression e]) (evalExpr k e >>= fun _ => pure .normal) := by
  have hkeeps : Keeps (evalExpr k e >>= fun _ => pure Completion.normal) :=
    ((allProlong_self k).expr e).keeps.bind fun _ _ => List.prefix_rfl
  match n with
  | 0 => exact prolongs_exhausted hkeeps
  | 1 => exact prolongs_exhausted hkeeps
  | n + 2 =>
    rw [execStmts_expression]
    exact ((allProlong (by omega)).expr e).bind fun _ => .pure _

theorem turn_keeps (f : ForLoop) (k : Nat) : Keeps (f.turn k) := by
  obtain ⟨init, cond, inc, body⟩ := f
  have hbody : Keeps (execStmt k body) := ((allProlong_self k).stmt body).keeps
  cases inc with
  | none =>
    rw [turn_of_none]
    exact hbody
  | some e =>
    rw [turn_of_some]
    refine hbody.bind fun completion => ?_
    cases completion with
    | returned value => exact fun _ => List.prefix_rfl
    | normal => exact (increment_prolongs e (Nat.le_refl k)).keeps

theorem treeTurn_prolongs (h : n ≤ k) : Prolongs (f.treeTurn n) (f.turn k) := by
  have hkeeps := f.turn_keeps k
  obtain ⟨init, cond, inc, body⟩ := f
  cases inc with
  | none =>
    rw [turn_of_none]
    exact (allProlong h).stmt body
  | some e =>
    match n with
    | 0 => exact prolongs_exhausted hkeeps
    | 1 => exact prolongs_exhausted hkeeps
    | n + 2 =>
      rw [turn_of_some]
      refine Prolongs.bind ((allProlong (by omega)).stmt body) fun completion => ?_
      cases completion with
      | returned value => exact .pure _
      | normal => exact increment_prolongs e (by omega)

theorem turn_prolongs (h : n + 4 ≤ k) : Prolongs (f.turn n) (f.treeTurn k) := by
  obtain ⟨init, cond, inc, body⟩ := f
  obtain ⟨k, rfl⟩ : ∃ j, k = j + 4 := ⟨k - 4, by omega⟩
  cases inc with
  | none =>
    rw [turn_of_none]
    exact (allProlong (by omega)).stmt body
  | some e =>
    rw [turn_of_some]
    refine ((allProlong (by omega)).stmt body).bind fun completion => ?_
    cases completion with
    | returned value => exact .pure _
    | normal =>
      show Prolongs _ (execStmts (k + 2) [.expression e])
      rw [execStmts_expression]
      exact ((allProlong (by omega)).expr e).bind fun _ => .pure _

theorem treeTurn_keeps (f : ForLoop) (n : Nat) : Keeps (f.treeTurn n) := by
  obtain ⟨init, cond, inc, body⟩ := f
  match inc, n with
  | none, n => exact ((allProlong_self n).stmt body).keeps
  | some e, 0 => exact fun _ => List.prefix_rfl
  | some e, n + 1 => exact ((allProlong_self n).stmts _).keeps

/-- The loop needs no more than two steps beyond what the tree without its blocks needs. -/
theorem flat_prolongs (h : n + 2 ≤ k) : Prolongs (f.flat n) (f.exec k) := by
  have hloop : Prolongs (repeatWhile f.treeGoesOn f.treeTurn n) (repeatWhile f.goesOn f.turn k) := by
    refine repeatWhile_prolongs (d := 0) treeGoesOn_prolongs treeTurn_prolongs (fun j => ?_) (by omega)
    exact repeatWhile_keeps (fun i => (treeGoesOn_prolongs (Nat.le_refl i)).keeps)
      f.turn_keeps j
  unfold flat exec
  cases f.initializer with
  | none => exact hloop
  | some s =>
    refine .get fun m => (Prolongs.silent fun _ => rfl).bind fun scope => Prolongs.inScope ?_ scope
    exact ((allProlong h).stmt s).bind fun _ => hloop

/-- And the other way round, four. -/
theorem exec_prolongs (h : n + 4 ≤ k) : Prolongs (f.exec n) (f.flat k) := by
  have hloop : Prolongs (repeatWhile f.goesOn f.turn n) (repeatWhile f.treeGoesOn f.treeTurn k) := by
    refine repeatWhile_prolongs (fun hle => goesOn_prolongs (by omega)) turn_prolongs (fun j => ?_) h
    exact repeatWhile_keeps (fun i => ((allProlong_self i).expr f.treeCondition).keeps.bind fun _ _ => List.prefix_rfl)
      (treeTurn_keeps f) j
  unfold flat exec
  cases f.initializer with
  | none => exact hloop
  | some s =>
    refine .get fun m => (Prolongs.silent fun _ => rfl).bind fun scope => Prolongs.inScope ?_ scope
    exact ((allProlong (by omega)).stmt s).bind fun _ => hloop

end ForLoop

/-! ## Meaning -/

def Collapse.none : Collapse := ⟨id, fun _ => False⟩

theorem Collapse.map_none (enclosing : Option ScopeId) : enclosing.map Collapse.none.number = enclosing :=
  Option.map_id_apply

theorem Machine.collapses_self {m : Machine} (hm : m.heap.Sound) (hscope : m.scope < m.heap.scopes.all.size) :
    m.Collapses .none m := by
  have hscopes : m.heap.scopes.Collapses .none m.heap.scopes := by
    refine ⟨hm.ordered, hm.ordered, fun id scope hs _ => ?_, nofun, fun _ _ _ _ _ _ heq => heq⟩
    rw [Collapse.map_none]
    exact hs
  refine ⟨⟨hscopes, fun id => ?_, fun id => ?_, rfl⟩, hscope, rfl, rfl, rfl, rfl, rfl⟩
  · cases hf : m.heap.functions[id]? with
    | none => exact .none
    | some f =>
      obtain ⟨_, hserves, -⟩ := hm.functions id f hf
      exact .some ⟨hserves.exists_scope, nofun, rfl⟩
  · cases hi : m.heap.classes[id]? with
    | none => exact .none
    | some info =>
      refine .some ⟨rfl, rfl, fun name => ?_⟩
      cases hf : info.methods.get? name with
      | none => exact .none
      | some f =>
        obtain ⟨_, hlt, -⟩ := hm.methods id info name f hi hf
        exact .some ⟨hlt, nofun, rfl⟩

/-- Two machines that come from `m`. They differ by scopes of the first that bind nothing and
are younger than `m`, and in nothing else. -/
structure Machine.Agree (m m₁ m₂ : Machine) : Prop where
  printed : m₂.printed = m₁.printed
  scopes : ∀ id : Nat, id < m.heap.scopes.all.size → m₂.heap.scopes.all[id]? = m₁.heap.scopes.all[id]?
  objects : m₂.heap.objects = m₁.heap.objects
  collapses : ∃ c : Collapse, (∀ id, id < m.heap.scopes.all.size → c.number id = id ∧ ¬ c.extra id) ∧ m₁.Collapses c m₂

theorem Machine.Grown.agree {m m₁ m₂ : Machine} {c : Collapse} (hg : m.Grown .none c m₁) (hc : m₁.Collapses c m₂) :
    m.Agree m₁ m₂ := by
  have hto : ∀ id, id < m.heap.scopes.all.size → c.number id = id := fun id hid => hg.grows.number id hid
  have hextra : ∀ id, id < m.heap.scopes.all.size → ¬ c.extra id := fun id hid => (hg.grows.extra id hid).mp
  refine ⟨hc.printed, fun id hid => ?_, hc.heap.objects, c, fun id hid => ⟨hto id hid, hextra id hid⟩, hc⟩
  obtain ⟨scope, hscope⟩ := Scopes.getElem?_of_lt (Nat.lt_of_lt_of_le hid hg.size_le)
  have hkept := hc.heap.scopes.kept id scope hscope (hextra id hid)
  have henc := Scopes.map_number hg.grows hc.heap.scopes.ordered hscope (Nat.le_of_lt hid)
  rw [hto id hid, henc, Collapse.map_none] at hkept
  rw [hkept, hscope]

theorem Eval.Prolongs.ends {α : Type} {x y : Eval α} (h : Prolongs x y) {m m' : Machine} {r : Except Halt α}
    (hx : x m = (r, m')) (hr : r ≠ .error .exhausted) : y m = (r, m') := by
  rcases h.below m with hout | hsame
  · rw [hx] at hout
    exact absurd hout hr
  · exact hsame.trans hx

theorem Eval.Prolongs.printed {α : Type} {x y : Eval α} (h : Prolongs x y) (m : Machine) :
    (x m).2.printed.toList <+: (y m).2.printed.toList := by
  rcases h.same m with ⟨-, hprinted⟩ | hsame
  · exact hprinted
  · simp [hsame]

namespace ForLoop

variable {f : ForLoop} {m : Machine}

/-- Whatever the tree does, the loop does, and the other way round. -/
theorem tree_exec {nearest isOpen : Bool} {ts rest : List Token} (hf : Grammar.For nearest isOpen ts f rest)
    (hm : m.Collapses .none m) (n : Nat) :
    ∃ r m₁ m₂, execStmt (n + f.lead) f.tree m = (r, m₁) ∧ f.flat n m = (r, m₂) ∧ m.Agree m₁ m₂ := by
  obtain ⟨hx, hy, hg, hc⟩ := flat_together hf hm n
  exact ⟨_, _, _, hx, hy, hg.agree hc⟩

/-- If the tree comes to an end, so does the loop, in the same way. -/
theorem exec_of_tree {nearest isOpen : Bool} {ts rest : List Token} (hf : Grammar.For nearest isOpen ts f rest)
    (hm : m.Collapses .none m) {n : Nat} {r : Except Halt Completion} {m₁ : Machine}
    (h : execStmt n f.tree m = (r, m₁)) (hr : r ≠ .error .exhausted) : ∃ k m₂, f.exec k m = (r, m₂) ∧ m.Agree m₁ m₂ := by
  obtain ⟨r', m₁', m₂, hx, hy, ha⟩ := tree_exec hf hm n
  cases (((allProlong (Nat.le_add_right n f.lead)).stmt f.tree).ends h hr).symm.trans hx
  exact ⟨n + 2, m₂, (flat_prolongs (Nat.le_refl _)).ends hy hr, ha⟩

/-- If the loop comes to an end, so does the tree, in the same way. -/
theorem tree_of_exec {nearest isOpen : Bool} {ts rest : List Token} (hf : Grammar.For nearest isOpen ts f rest)
    (hm : m.Collapses .none m) {n : Nat} {r : Except Halt Completion} {m₂ : Machine} (h : f.exec n m = (r, m₂))
    (hr : r ≠ .error .exhausted) : ∃ k m₁, execStmt k f.tree m = (r, m₁) ∧ m.Agree m₁ m₂ := by
  obtain ⟨r', m₁, m₂', hx, hy, ha⟩ := tree_exec hf hm (n + 4)
  cases ((exec_prolongs (Nat.le_refl _)).ends h hr).symm.trans hy
  exact ⟨_, m₁, hx, ha⟩

/-- The tree prints what the loop prints, as far as they are followed. -/
theorem tree_printed {nearest isOpen : Bool} {ts rest : List Token} (hf : Grammar.For nearest isOpen ts f rest)
    (hm : m.Collapses .none m) (n : Nat) :
    (execStmt n f.tree m).2.printed.toList <+: (f.exec (n + 2) m).2.printed.toList ∧
      (f.exec n m).2.printed.toList <+: (execStmt (n + 4 + f.lead) f.tree m).2.printed.toList := by
  have hsame : ∀ n, (f.flat n m).2.printed = (execStmt (n + f.lead) f.tree m).2.printed := by
    intro n
    obtain ⟨r, m₁, m₂, hx, hy, ha⟩ := tree_exec hf hm n
    rw [hx, hy]
    exact ha.printed
  constructor
  · refine (((allProlong (Nat.le_add_right n f.lead)).stmt f.tree).printed m).trans ?_
    rw [← hsame]
    exact (flat_prolongs (Nat.le_refl _)).printed m
  · rw [← hsame]
    exact (exec_prolongs (Nat.le_refl _)).printed m

end ForLoop

/-- If each end of the one is an end of the other, the one has no end where the other has none. -/
theorem Eval.exhausted_of_ends {α : Type} {x y : Nat → Except Halt α × Machine}
    (h : ∀ n r m, x n = (r, m) → r ≠ .error .exhausted → ∃ k m', y k = (r, m'))
    (hy : ∀ k, (y k).1 = .error .exhausted) (n : Nat) : (x n).1 = .error .exhausted := by
  apply Classical.byContradiction
  intro hends
  obtain ⟨k, m', hk⟩ := h n (x n).1 (x n).2 rfl hends
  have hout := hy k
  rw [hk] at hout
  exact hends hout

/-- Wherever a run gets to a statement, the parser's tree for a counting loop does there what
the loop means. It comes to the same end, with the same value or fault, and leaves the same
behind but for empty scopes; it has no end where the loop has none; and it prints the same
lines, whether it ends or not. -/
theorem for_tree_keeps_meaning {session : Session} (h : session.Reachable) (fuel : Nat) (clock : Nat → Float)
    (source : Bytes) (hsource : (analyze source).reports = []) {bound : Nat} {s : Stmt} {m : Machine}
    (hvisits : Visits (session.evaluation fuel clock source) ⟨bound, .stmt s, m⟩) {isOpen : Bool} {ts rest : List Token}
    {f : ForLoop} (hf : Grammar.For true isOpen ts f rest) :
    (∀ k (state : ParserState), ts.length ≤ k → (isOpen = true → ¬ Grammar.Next .else_ rest) →
      Parser.Yields (Parser.statement (Parser.inner (k + 1))) (state.at ts) f.tree (state.at rest)
        (f.tree.Valid state.context.inFunction state.context.enclosingClass)) ∧
    (∀ n r m₁, execStmt n f.tree m = (r, m₁) → r ≠ .error .exhausted →
      ∃ k m₂, f.exec k m = (r, m₂) ∧ m.Agree m₁ m₂) ∧
    (∀ n r m₂, f.exec n m = (r, m₂) → r ≠ .error .exhausted →
      ∃ k m₁, execStmt k f.tree m = (r, m₁) ∧ m.Agree m₁ m₂) ∧
    ((∀ n, (execStmt n f.tree m).1 = .error .exhausted) ↔ ∀ n, (f.exec n m).1 = .error .exhausted) ∧
    ∀ lines : List Bytes, (∃ n, lines <+: (execStmt n f.tree m).2.printed.toList) ↔
      ∃ n, lines <+: (f.exec n m).2.printed.toList := by
  obtain ⟨_, _, hstands, -, -⟩ := hvisits.sound (h.evaluation_sound fuel clock hsource)
  have hm : m.Collapses .none m := m.collapses_self hstands.sound hstands.serves.exists_scope
  refine ⟨fun k state hlen hopen => hf.statement.yields k state hlen hopen, fun _ _ _ => ForLoop.exec_of_tree hf hm,
    fun _ _ _ => ForLoop.tree_of_exec hf hm, ⟨?_, ?_⟩, fun lines => ⟨?_, ?_⟩⟩
  · refine Eval.exhausted_of_ends fun n r m₂ hrun hr => ?_
    obtain ⟨k, m₁, htree, -⟩ := ForLoop.tree_of_exec hf hm hrun hr
    exact ⟨k, m₁, htree⟩
  · refine Eval.exhausted_of_ends fun n r m₁ hrun hr => ?_
    obtain ⟨k, m₂, hexec, -⟩ := ForLoop.exec_of_tree hf hm hrun hr
    exact ⟨k, m₂, hexec⟩
  · rintro ⟨n, hlines⟩
    exact ⟨n + 2, hlines.trans (ForLoop.tree_printed hf hm n).1⟩
  · rintro ⟨n, hlines⟩
    exact ⟨n + 4 + f.lead, hlines.trans (ForLoop.tree_printed hf hm n).2⟩

/-- `for (var go = true; go; go = false) print word;` -/
def goTokens : List Token := [
  ⟨.for_, utf8 "for", 1⟩, ⟨.leftParen, utf8 "(", 1⟩, ⟨.var_, utf8 "var", 1⟩, ⟨.identifier, utf8 "go", 1⟩,
  ⟨.equal, utf8 "=", 1⟩, ⟨.true_, utf8 "true", 1⟩, ⟨.semicolon, utf8 ";", 1⟩, ⟨.identifier, utf8 "go", 1⟩,
  ⟨.semicolon, utf8 ";", 1⟩, ⟨.identifier, utf8 "go", 1⟩, ⟨.equal, utf8 "=", 1⟩, ⟨.false_, utf8 "false", 1⟩,
  ⟨.rightParen, utf8 ")", 1⟩, ⟨.print_, utf8 "print", 1⟩, ⟨.identifier, utf8 "word", 1⟩, ⟨.semicolon, utf8 ";", 1⟩]

def goLoop : ForLoop where
  initializer := some (.var ⟨utf8 "go", 1⟩ (some (.literal (.bool true))))
  condition := some (.var ⟨utf8 "go", 1⟩)
  increment := some (.assign ⟨utf8 "go", 1⟩ (.literal (.bool false)))
  body := .print (.var ⟨utf8 "word", 1⟩)

def wordSession : Session := (Session.fresh.run 40 (fun _ => 0) (utf8 "var word = \"a\";")).2

def wordMachine : Machine := { heap := wordSession.heap, clock := fun _ => 0 }

/-- A loop that makes one turn. -/
theorem for_tree_keeps_meaning_once :
    wordSession.Reachable ∧ (analyze (utf8 "print word;")).reports = [] ∧ Grammar.For true false goTokens goLoop [] ∧
    (∃ s, Visits (wordSession.evaluation 40 (fun _ => 0) (utf8 "print word;")) ⟨40, .stmt s, wordMachine⟩) ∧
    ∃ k m₁, execStmt k goLoop.tree wordMachine = (.ok .normal, m₁) ∧ m₁.printed.toList = [utf8 "a"] := by
  have hreachable : wordSession.Reachable := .run 40 (fun _ => 0) _ .fresh
  have hsource : (analyze (utf8 "print word;")).reports = [] := by decide +kernel
  have hfor : Grammar.For true false goTokens goLoop [] :=
    .mk rfl rfl (.var (.mk rfl rfl (.some (.mk rfl (Grammar.Primary.expression (.true rfl)))) rfl))
      (.some (Grammar.Primary.expression (.var rfl))) rfl
      (.some (.assign rfl rfl (Grammar.Primary.expression (.false rfl)))) rfl
      (.print rfl (Grammar.Primary.expression (.var rfl)) rfl)
  have hstatements : (analyze (utf8 "print word;")).statements ≠ [] := by
    rw [← List.isEmpty_eq_false_iff]
    decide +kernel
  obtain ⟨s, rest, hs⟩ := List.exists_cons_of_ne_nil hstatements
  have hvisits : Visits (wordSession.evaluation 40 (fun _ => 0) (utf8 "print word;")) ⟨40, .stmt s, wordMachine⟩ := by
    unfold Session.evaluation
    rw [hs]
    exact .part .here .topLevel
  have hnormal : (match (goLoop.exec 12 wordMachine).1 with
      | .ok .normal => true
      | _ => false) = true := by decide +kernel
  have hprinted : (goLoop.exec 12 wordMachine).2.printed.toList = [utf8 "a"] := by decide +kernel
  rcases hrun : goLoop.exec 12 wordMachine with ⟨r, m₂⟩
  rw [hrun] at hnormal hprinted
  match r, hnormal with
  | .ok .normal, _ =>
    obtain ⟨k, m₁, htree, hagree⟩ := (for_tree_keeps_meaning hreachable 40 (fun _ => 0) _ hsource hvisits hfor).2.2.1
      12 (.ok .normal) m₂ hrun nofun
    refine ⟨hreachable, hsource, hfor, ⟨s, hvisits⟩, k, m₁, htree, ?_⟩
    rw [← hagree.printed]
    exact hprinted

end Lox
