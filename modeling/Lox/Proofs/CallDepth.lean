/-
  Lox.Proofs.CallDepth — the current scope and the calls in progress. Every evaluation leaves
  both as it found them, however it ends, so the depth of the machine is always the number of
  the calls around what is being evaluated. At most 1000 calls are in progress, and a further
  one with the right number of arguments is refused; nothing else makes the stack overflow
  (`scope_and_depth_restored`).
-/

import Lox.Proofs.Eval.Trace
import Lox.Proofs.Grammar.Acceptance
import Lox.Proofs.Session.Endings
import Lox.Proofs.StaticChecks

namespace Lox

open Eval

/-- How many calls a task itself is. The initializer that a class call runs is no call of its
own. -/
def Task.calls : Task → Nat
  | .call _ _ => 1
  | _ => 0

/-- The evaluation is started within so many calls of the run. -/
inductive InCalls (run : Evaluation) : Nat → Evaluation → Prop
  | run : InCalls run 0 run
  | part {k : Nat} {e e' : Evaluation} : InCalls run k e → Part e e' → InCalls run (k + e'.task.calls) e'

theorem InCalls.visits {run e : Evaluation} {k : Nat} (h : InCalls run k e) : Visits run e := by
  induction h with
  | run => exact .here
  | part _ hpart ih => exact ih.part hpart

theorem Visits.inCalls {run e : Evaluation} (h : Visits run e) : ∃ k, InCalls run k e := by
  induction h with
  | here => exact ⟨0, .run⟩
  | part _ hpart ih =>
    obtain ⟨k, hk⟩ := ih
    exact ⟨_, hk.part hpart⟩

/-! ## Depth -/

/-- A part is started at the depth of the whole; a call one deeper, if there is room. -/
theorem Part.depth {p e : Evaluation} (h : Part p e) :
    e.machine.depth = p.machine.depth + e.task.calls ∧ (p.machine.depth ≤ maxDepth → e.machine.depth ≤ maxDepth) := by
  have same {e : Evaluation} (htask : e.task.calls = 0) (hdepth : e.machine.depth = p.machine.depth) :
      e.machine.depth = p.machine.depth + e.task.calls ∧ (p.machine.depth ≤ maxDepth → e.machine.depth ≤ maxDepth) := by
    rw [htask, hdepth]
    exact ⟨rfl, id⟩
  cases h with
  | invocation hf hargs hcheck =>
    obtain ⟨rfl, -, hroom⟩ := Evaluation.checkCall_ok hcheck
    have hdepth := ((Evaluation.steady_expr hf).trans (Evaluation.steady_exprs hargs)).depth
    exact ⟨congrArg (· + 1) hdepth, fun _ => hroom⟩
  | right h => exact same rfl (Evaluation.steady_expr h).depth
  | undecided h => exact same rfl (Evaluation.steady_expr h).depth
  | arguments h => exact same rfl (Evaluation.steady_expr h).depth
  | fieldValue h => exact same rfl (Evaluation.steady_expr h).depth
  | others h => exact same rfl (Evaluation.steady_expr h).depth
  | thenBranch h => exact same rfl (Evaluation.steady_expr h).depth
  | elseBranch h => exact same rfl (Evaluation.steady_expr h).depth
  | turn h => exact same rfl (Evaluation.steady_expr h).depth
  | again h _ h' => exact same rfl ((Evaluation.steady_expr h).trans (Evaluation.steady_stmt h')).depth
  | statements h => exact same rfl (Evaluation.steady_stmt h).depth
  | rest h => exact same rfl (Evaluation.steady_stmt h).depth
  | initializer hobject _ hbind =>
    cases hobject
    cases hbind
    exact same rfl rfl
  | functionBody hscope =>
    cases hscope
    exact same rfl rfl
  | block hscope =>
    cases hscope
    exact same rfl rfl
  | _ => exact same rfl rfl

/-- The depth of the machine is the number of calls in progress. -/
theorem InCalls.depth {run e : Evaluation} {k : Nat} (hrun : run.machine.depth = 0) (h : InCalls run k e) :
    e.machine.depth = k ∧ k ≤ maxDepth := by
  induction h with
  | run => exact ⟨hrun, Nat.zero_le _⟩
  | part _ hpart ih =>
    obtain ⟨rfl, hle⟩ := ih
    obtain ⟨hdepth, hbound⟩ := hpart.depth
    exact ⟨hdepth, hdepth ▸ hbound hle⟩

/-! ## Overflow -/

namespace Evaluation

theorem Flows.halts_with_part {p e : Evaluation} {out : Except Halt (List Value) × Machine} {pool : List Value}
    {m : Machine} {es : List Evaluation} {halt : Halt} (h : Flows p out pool m es) (hmem : e ∈ es)
    (he : e.outcome.1 = .error halt) : out.1 = .error halt := by
  induction h with
  | ends => cases hmem
  | halts _ _ hhalt _ hout =>
    rw [List.mem_singleton.mp hmem, hhalt] at he
    cases he
    exact hout
  | goes _ _ hok _ ih =>
    rcases List.mem_cons.mp hmem with rfl | hmem
    · cases hok.symm.trans he
    · exact ih hmem
  | finds _ _ _ ih => exact ih hmem

/-- An overflow comes from a part, or from a call that finds no room. -/
theorem Flows.overflow {p : Evaluation} {out : Except Halt (List Value) × Machine} {pool : List Value} {m : Machine}
    {es : List Evaluation} {line : Nat} (h : Flows p out pool m es)
    (hout : out.1 = .error (.fault ⟨line, .stackOverflow⟩)) :
    (∃ e ∈ es, e.outcome.1 = .error (.fault ⟨line, .stackOverflow⟩)) ∨ p.Calls line ∧ maxDepth ≤ p.machine.depth := by
  induction h with
  | ends _ _ hcalls => exact .inr (hcalls line hout)
  | halts _ _ hhalt _ hout' =>
    cases hout'.symm.trans hout
    exact .inl ⟨_, List.mem_cons_self, hhalt⟩
  | goes _ _ _ _ ih =>
    rcases ih with ⟨e, he, hhalt⟩ | hown
    · exact .inl ⟨e, List.mem_cons_of_mem _ he, hhalt⟩
    · exact .inr hown
  | finds _ _ _ ih => exact ih

/-- Nothing stops a halt on its way out. -/
theorem halts_with_visited {p e : Evaluation} {halt : Halt} (h : Visits p e) (he : e.outcome.1 = .error halt) :
    p.outcome.1 = .error halt := by
  induction h with
  | here => exact he
  | part _ hpart ih => exact ih ((flows _).halts_with_part (mem_parts.mpr hpart) he)

/-- Where no further call may be in progress, a call is refused. -/
theorem Calls.refused {e : Evaluation} {line : Nat} (h : e.Calls line) (hfull : maxDepth ≤ e.machine.depth) :
    e.outcome.1 = .error (.fault ⟨line, .stackOverflow⟩) := by
  cases h with
  | @mk n f args _ m callee m₁ values m₂ hf hargs harity =>
    have hdepth : m₂.depth = m.depth := ((steady_expr hf).trans (steady_exprs hargs)).depth
    have hcheck : checkCall callee values.length line m₂ = (.error (.fault ⟨line, .stackOverflow⟩), m₂) := by
      rw [checkCall, get_bind, harity]
      dsimp only
      rw [if_neg (fun hne => hne rfl), if_pos (hdepth ▸ hfull)]
      rfl
    have hrun : evalExpr (n + 1) (.call f args line) m = (.error (.fault ⟨line, .stackOverflow⟩), m₂) := by
      rw [evalExpr, bind_ok hf, bind_ok hargs, bind_error hcheck]
    rw [outcome, hrun]
    rfl

/-- The stack overflows within an evaluation exactly if it comes to a call for which there is
no room. -/
theorem overflow_iff (p : Evaluation) (line : Nat) :
    p.outcome.1 = .error (.fault ⟨line, .stackOverflow⟩) ↔
      ∃ e, Visits p e ∧ e.Calls line ∧ maxDepth ≤ e.machine.depth := by
  constructor
  · intro hout
    induction p using parts_induction with
    | h p ih =>
      rcases p.flows.overflow hout with ⟨e, hmem, he⟩ | hown
      · have hpart := mem_parts.mp hmem
        obtain ⟨e', hvisits, hcalls⟩ := ih e hpart he
        exact ⟨e', (Visits.here.part hpart).trans hvisits, hcalls⟩
      · exact ⟨p, .here, hown⟩
  · rintro ⟨e, hvisits, hcalls, hfull⟩
    exact halts_with_visited hvisits (hcalls.refused hfull)

end Evaluation

/-! ## Runs -/

theorem Session.overflow_iff (session : Session) (fuel : Nat) (clock : Nat → Float) (source : Bytes) (line : Nat) :
    (session.run fuel clock source).1.result = .failed ⟨line, .stackOverflow⟩ ↔
      (analyze source).reports = [] ∧
        (session.evaluation fuel clock source).outcome.1 = .error (.fault ⟨line, .stackOverflow⟩) := by
  by_cases hvalid : (analyze source).reports = []
  · obtain ⟨-, -, hresult, -⟩ := session.run_shows fuel clock hvalid
    have hout : (session.evaluation fuel clock source).outcome.1 =
      (session.outcome fuel clock source).1.map fun _ => [] := rfl
    rw [hresult, hout]
    rcases (session.outcome fuel clock source).1 with (e | _) | _
    · simp [Result.ofOutcome, Except.map, hvalid]
    · simp [Result.ofOutcome, Except.map]
    · simp [Result.ofOutcome, Except.map]
  · rw [session.run_of_faults fuel clock hvalid]
    simp [hvalid]

/-- Within every run, every evaluation ends in the scope and at the depth in which it started,
however it ends, and the run itself in the global scope and at depth zero. The depth is the
number of calls in progress, which is at most 1000. An evaluation comes to a stack overflow
exactly if in its course something is called with the right number of arguments while 1000
calls are in progress, and this then ends the run. -/
theorem scope_and_depth_restored (session : Session) (fuel : Nat) (clock : Nat → Float) (source : Bytes) :
    let run := session.evaluation fuel clock source
    (∀ e, Visits run e → e.final.scope = e.machine.scope ∧ e.final.depth = e.machine.depth ∧ ∃ k, InCalls run k e) ∧
    (run.final.scope = Heap.globals ∧ run.final.depth = 0) ∧
    (∀ k e, InCalls run k e → e.machine.depth = k ∧ e.final.depth = k ∧ k ≤ 1000) ∧
    (∀ e, Visits run e → ∀ line, e.outcome.1 = .error (.fault ⟨line, .stackOverflow⟩) ↔
      ∃ call, Visits e call ∧ call.Calls line ∧ InCalls run 1000 call) ∧
    (∀ line, (session.run fuel clock source).1.result = .failed ⟨line, .stackOverflow⟩ ↔
      (analyze source).reports = [] ∧ ∃ call, call.Calls line ∧ InCalls run 1000 call) ∧
    RuntimeFault.stackOverflow.message = utf8 "Stack overflow." := by
  intro run
  have hdepth {k : Nat} {e : Evaluation} (h : InCalls run k e) : e.machine.depth = k ∧ k ≤ maxDepth := h.depth rfl
  have hfull {e : Evaluation} (h : Visits run e) : maxDepth ≤ e.machine.depth ↔ InCalls run 1000 e := by
    obtain ⟨k, hk⟩ := h.inCalls
    obtain ⟨hmachine, hle⟩ := hdepth hk
    constructor
    · intro hge
      obtain rfl : k = maxDepth := Nat.le_antisymm hle (hmachine ▸ hge)
      exact hk
    · intro hfull
      rw [(hdepth hfull).1]
      exact Nat.le_refl 1000
  refine ⟨fun e he => ⟨e.steady.scope, e.steady.depth, he.inCalls⟩, ⟨run.steady.scope, run.steady.depth⟩, ?_, ?_, ?_, rfl⟩
  · intro k e hk
    obtain ⟨hmachine, hle⟩ := hdepth hk
    exact ⟨hmachine, e.steady.depth.trans hmachine, hle⟩
  · intro e he line
    rw [e.overflow_iff]
    constructor
    · rintro ⟨call, hvisits, hcalls, hge⟩
      exact ⟨call, hvisits, hcalls, (hfull (he.trans hvisits)).mp hge⟩
    · rintro ⟨call, hvisits, hcalls, hin⟩
      exact ⟨call, hvisits, hcalls, (hfull hin.visits).mpr hin⟩
  · intro line
    rw [session.overflow_iff, Evaluation.overflow_iff]
    refine and_congr_right fun _ => ⟨?_, ?_⟩
    · rintro ⟨call, hvisits, hcalls, hge⟩
      exact ⟨call, hcalls, (hfull hvisits).mp hge⟩
    · rintro ⟨call, hcalls, hin⟩
      exact ⟨call, hin.visits, hcalls, (hfull hin.visits).mpr hin⟩

/-! ## A function without an end -/

namespace Endless

def source : Bytes := utf8 "fun f() \x7b f(); \x7d f();"

def name : Name := ⟨utf8 "f", 1⟩

def call : Expr := .call (.var name) [] 1

def declaration : FunctionDecl := .mk name [] [.expression call]

def callTokens : List Token :=
  [⟨.identifier, utf8 "f", 1⟩, ⟨.leftParen, utf8 "(", 1⟩, ⟨.rightParen, utf8 ")", 1⟩, ⟨.semicolon, utf8 ";", 1⟩]

theorem derives_call (rest : List Token) : Grammar.Statement true false (callTokens ++ rest) (.expression call) rest := by
  have hcall : Grammar.Call (callTokens ++ rest) call (⟨.semicolon, utf8 ";", 1⟩ :: rest) :=
    .mk (.var rfl) (.call rfl rfl .done)
  exact .expression (.mk hcall.expression rfl)

def functionTokens : List Token :=
  [⟨.identifier, utf8 "f", 1⟩, ⟨.leftParen, utf8 "(", 1⟩, ⟨.rightParen, utf8 ")", 1⟩, ⟨.leftBrace, utf8 "\x7b", 1⟩] ++
    (callTokens ++ [⟨.rightBrace, utf8 "\x7d", 1⟩])

theorem derives_function (rest : List Token) : Grammar.Function true (functionTokens ++ rest) declaration rest :=
  .mk rfl rfl (.none : Grammar.Optional Grammar.Parameters _ none _) rfl rfl (.cons (.statement (derives_call _)) .nil) rfl

theorem analyze_source : (analyze source).statements = [.function declaration, .expression call] := by
  have htokens : (scan source).tokens = ⟨.fun_, utf8 "fun", 1⟩ :: (functionTokens ++ (callTokens ++ [])) := by
    decide +kernel
  have hprogram : Grammar.Program true (scan source).tokens [.function declaration, .expression call] := by
    rw [htokens]
    exact .cons (.function rfl (derives_function _)) (.cons (.statement (derives_call [])) .nil)
  rw [analyze_statements]
  exact (parse_program hprogram).1

/-- The name stands for the function, here and among the globals. -/
structure Knows (m : Machine) : Prop where
  function : m.heap.functions[0]? = some ⟨declaration, Heap.globals, false⟩
  globals : m.heap.scopes.own? Heap.globals name.text = some (.function 0)
  here : m.heap.scopes.get? m.scope name.text = some (.function 0)

/-- The body of the function finds the function under its name again. -/
theorem Knows.called {m : Machine} (h : Knows m) (depth : Nat) :
    Knows { m.addScope ⟨some Heap.globals, Table.empty⟩ with scope := m.heap.scopes.next, depth } := by
  obtain ⟨globals, hglobals, hget⟩ := Scopes.own?_eq_some.mp h.globals
  have hkept : (m.heap.scopes.push ⟨some Heap.globals, Table.empty⟩).all[Heap.globals]? = some globals :=
    push_keeps _ hglobals
  have hown : (m.heap.scopes.push ⟨some Heap.globals, Table.empty⟩).own? Heap.globals name.text = some (.function 0) :=
    Scopes.own?_eq_some.mpr ⟨globals, hkept, hget⟩
  obtain ⟨k, hnext⟩ : ∃ k, m.heap.scopes.next = k + 1 :=
    ⟨m.heap.scopes.next - 1, (Nat.succ_pred_eq_of_pos (Array.getElem?_eq_some_iff.mp hglobals).1).symm⟩
  have hcontains : globals.bindings.contains name.text = true := by simp [Table.contains, hget]
  refine ⟨h.function, hown, ?_⟩
  show (m.heap.scopes.push ⟨some Heap.globals, Table.empty⟩).get? m.heap.scopes.next name.text = _
  rw [Scopes.get?, Scopes.holder?, Scopes.holderWithin?_succ _ _ _ (Scopes.getElem?_push_next _ _), hnext]
  show ((Scopes.holderWithin? _ _ (k + 1) Heap.globals).bind _) = _
  rw [Scopes.holderWithin?_succ _ _ _ hkept, hcontains]
  exact hown

theorem Knows.callee {m : Machine} (h : Knows m) (n : Nat) : evalExpr (n + 1) (.var name) m = (.ok (.function 0), m) := by
  show lookup name m = _
  rw [lookup, get_bind, h.here]
  rfl

theorem Knows.arity {m : Machine} (h : Knows m) : m.heap.arity? (.function 0) = some 0 := by
  rw [Heap.arity?, h.function]
  rfl

/-- Called with some room left, the function calls itself in what is left then. -/
theorem overflows (k : Nat) {m : Machine} (h : Knows m) (hk : m.depth + k = maxDepth) {n : Nat} (hn : 5 * k + 2 ≤ n) :
    (Evaluation.outcome ⟨n, .expr call, m⟩).1 = .error (.fault ⟨1, .stackOverflow⟩) := by
  induction k generalizing m n with
  | zero =>
    obtain ⟨n, rfl⟩ : ∃ j, n = j + 2 := ⟨n - 2, by omega⟩
    have hcalls : Evaluation.Calls ⟨n + 2, .expr call, m⟩ 1 := .mk (h.callee n) rfl h.arity
    exact hcalls.refused (Nat.le_of_eq hk.symm)
  | succ k ih =>
    obtain ⟨n, rfl⟩ : ∃ j, n = j + 5 := ⟨n - 5, by omega⟩
    have hcheck : checkCall (.function 0) 0 1 m = (.ok (), m) := by
      rw [checkCall, get_bind, h.arity]
      dsimp only
      rw [if_neg (fun hne => hne rfl), if_neg (by omega)]
      rfl
    have hargs : evalExprs (n + 4) [] m = (.ok [], m) := rfl
    have hinvocation : Part ⟨n + 5, .expr call, m⟩ ⟨n + 4, .call (.function 0) [], { m with depth := m.depth + 1 }⟩ :=
      .invocation (h.callee (n + 3)) hargs hcheck
    have hvisits : Visits ⟨n + 5, .expr call, m⟩ ⟨n, .expr call, _⟩ :=
      ((((Visits.here.part hinvocation).part (.function h.function)).part (.functionBody rfl)).part .statement).part .discarded
    exact Evaluation.halts_with_visited hvisits (ih (h.called (m.depth + 1)) (by show m.depth + 1 + k = _; omega) (by omega))

end Endless

open Endless in
/-- The thousandth call of the function is still made, and the one within it is refused. -/
theorem scope_and_depth_restored_endless :
    let run := Session.fresh.evaluation 6000 (fun _ => 0) source
    (Session.fresh.run 6000 (fun _ => 0) source).1.result = .failed ⟨1, .stackOverflow⟩ ∧
      ∃ call, call.Calls 1 ∧ InCalls run 1000 call ∧ Visits run call ∧
        call.final.scope = call.machine.scope ∧ call.final.depth = 1000 := by
  intro run
  obtain ⟨hrestored, -, hdepth, -, hoverflow, -⟩ := scope_and_depth_restored .fresh 6000 (fun _ => 0) source
  have hresult : (Session.fresh.run 6000 (fun _ => 0) source).1.result = .failed ⟨1, .stackOverflow⟩ := by
    rw [Session.overflow_iff, Session.evaluation, analyze_source]
    refine ⟨List.isEmpty_iff.mp (by decide +kernel), ?_⟩
    let m : Machine := { heap := Heap.initial, clock := fun _ => 0 }
    have hdeclared : execStmt 6000 (.function declaration) m =
        (.ok .normal, (m.addFunction ⟨declaration, Heap.globals, false⟩).bindName Heap.globals name.text (.function 0)) := rfl
    have hown : ((m.addFunction ⟨declaration, Heap.globals, false⟩).bindName Heap.globals name.text
        (.function 0)).heap.scopes.own? Heap.globals name.text = some (.function 0) := Table.get?_insert_self _ _ _
    have hknows : Knows ((m.addFunction ⟨declaration, Heap.globals, false⟩).bindName Heap.globals name.text (.function 0)) :=
      ⟨rfl, hown, Scopes.get?_of_own hown⟩
    exact Evaluation.halts_with_visited (((Visits.here.part (.rest hdeclared)).part .topLevel).part .discarded)
      (overflows 1000 hknows rfl (by omega))
  obtain ⟨-, call, hcalls, hin⟩ := (hoverflow 1).mp hresult
  exact ⟨hresult, call, hcalls, hin, hin.visits, (hrestored call hin.visits).1, (hdepth 1000 call hin).2.1⟩

end Lox
