/-
  Lox.Proofs.Bindings — only declarations bind names. In every run of every session, whatever
  is evaluated leaves the names of the scopes that are there as they are, however it ends; a
  declaration may add the name that it declares to the scope in which it is run. So a name that
  once resolves from a scope does so for the rest of the session (`only_declarations_bind`).
-/

import Lox.Proofs.Eval.Bindings
import Lox.Proofs.Session.Later

namespace Lox

open Eval

/-! ## Trees are tidy -/

theorem Stmt.tidy_counting {init : Option Stmt} {cond inc : Option Expr} {body : Stmt} (hinit : ∀ s ∈ init, s.Tidy)
    (hbody : body.declared? = none ∧ body.Tidy) :
    (Stmt.counting init cond inc body).declared? = none ∧ (Stmt.counting init cond inc body).Tidy := by
  have hwith (e : Expr) : (Stmt.block [body, .expression e]).declared? = none ∧ (Stmt.block [body, .expression e]).Tidy :=
    ⟨rfl, hbody.2, trivial, trivial⟩
  cases init with
  | none =>
    cases inc with
    | none => exact ⟨rfl, hbody⟩
    | some e => exact ⟨rfl, hwith e⟩
  | some s =>
    cases inc with
    | none => exact ⟨rfl, hinit s rfl, hbody, trivial⟩
    | some e => exact ⟨rfl, hinit s rfl, hwith e, trivial⟩

namespace Grammar

theorem VarDecl.tidy {ts rest : List Token} {s : Stmt} : VarDecl ts s rest → s.Tidy
  | .mk _ _ _ _ => trivial

theorem ExpressionStmt.tidy {ts rest : List Token} {s : Stmt} : ExpressionStmt ts s rest → s.declared? = none ∧ s.Tidy
  | .mk _ _ => ⟨rfl, trivial⟩

theorem ForInitializer.tidy {ts rest : List Token} {init : Option Stmt} (h : ForInitializer ts init rest) :
    ∀ s ∈ init, s.Tidy := by
  intro s hs
  cases h with
  | var h =>
    cases hs
    exact h.tidy
  | expression h =>
    cases hs
    exact h.tidy.2
  | none => cases hs

mutual

/-- A statement is no declaration, and neither are its branches. -/
theorem Statement.tidy {nearest isOpen : Bool} {ts rest : List Token} {s : Stmt} :
    Statement nearest isOpen ts s rest → s.declared? = none ∧ s.Tidy
  | .expression h => h.tidy
  | .forLoop _ _ hinit _ _ _ _ hbody => Stmt.tidy_counting hinit.tidy hbody.tidy
  | .ifOnly _ _ _ _ hbody => ⟨rfl, hbody.tidy⟩
  | .ifElse _ _ _ _ hbody _ _ helse => ⟨rfl, hbody.tidy, helse.tidy⟩
  | .print _ _ _ => ⟨rfl, trivial⟩
  | .ret _ _ _ => ⟨rfl, trivial⟩
  | .whileLoop _ _ _ _ hbody => ⟨rfl, hbody.tidy⟩
  | .block _ h _ => ⟨rfl, h.tidy⟩

theorem Declaration.tidy {nearest isOpen : Bool} {ts rest : List Token} {s : Stmt} :
    Declaration nearest isOpen ts s rest → s.Tidy
  | .classDecl _ _ _ _ hmethods _ => hmethods.tidy
  | .function _ h => h.tidy
  | .var h => h.tidy
  | .statement h => h.tidy.2

theorem Declarations.tidy {nearest : Bool} {ts rest : List Token} {ss : List Stmt} :
    Declarations nearest ts ss rest → Stmt.AllTidy ss
  | .nil => trivial
  | .cons h h' => ⟨h.tidy, h'.tidy⟩

theorem Function.tidy {nearest : Bool} {ts rest : List Token} {d : FunctionDecl} : Function nearest ts d rest → d.Tidy
  | .mk _ _ _ _ _ hbody _ => hbody.tidy

theorem Methods.tidy {nearest : Bool} {ts rest : List Token} {ds : List FunctionDecl} :
    Methods nearest ts ds rest → FunctionDecl.AllTidy ds
  | .nil => trivial
  | .cons h h' => ⟨h.tidy, h'.tidy⟩

end

end Grammar

/-- A declaration stands in a block or outermost, never as a branch or a loop body. -/
theorem analyze_tidy {source : Bytes} (h : (analyze source).reports = []) : Stmt.AllTidy (analyze source).statements :=
  (analyze_program h).1.tidy

/-! ## Sessions -/

namespace Session

variable {session : Session} {source : Bytes}

/-- Whatever a run evaluates is tidy, and the functions and methods it leaves are. -/
theorem visits_tidy {fuel : Nat} {clock : Nat → Float} (h : session.heap.Tidy) (hsource : (analyze source).reports = [])
    {e : Evaluation} (he : Visits (session.evaluation fuel clock source) e) : e.task.Tidy ∧ e.final.heap.Tidy := by
  have hprogram : (session.evaluation fuel clock source).task.Tidy := analyze_tidy hsource
  obtain ⟨htask, -, hfinal⟩ := Evaluation.tidy_invariant.visits hprogram h he
  exact ⟨htask, hfinal⟩

theorem Reachable.tidy (h : session.Reachable) : session.heap.Tidy := by
  have hinitial : Heap.initial.Tidy := by
    refine ⟨fun id c hc => ?_, fun home c hc => ?_⟩
    · simp [Heap.initial] at hc
    · obtain ⟨info, name, hinfo, -⟩ := hc
      simp [Heap.initial] at hinfo
  induction h with
  | fresh => exact hinitial
  | reset => exact hinitial
  | @run session fuel clock source _ ih =>
    by_cases hsource : (analyze source).reports = []
    · rw [run_heap session fuel clock hsource]
      exact (visits_tidy ih hsource .here).2
    · rw [session.run_of_fault fuel clock hsource]
      exact ih

/-- What an evaluation within a run does to the scopes. -/
theorem Reachable.gains (h : session.Reachable) {fuel : Nat} {clock : Nat → Float}
    (hsource : (analyze source).reports = []) {e : Evaluation} (he : Visits (session.evaluation fuel clock source) e) :
    e.machine.heap.scopes.Gains e.Binds e.final.heap.scopes :=
  e.gains fun _ hvisits => (visits_tidy h.tidy hsource (he.trans hvisits)).1

end Session

/-- Evaluating an expression, and executing any statement but a declaration, leaves the names
of all scopes that were there as they were, and a declaration adds at most its own name, to
the scope where it is run; all this however the evaluation ends. A name that resolves from a
scope does so from then on, in the same run and in all later runs of the session. -/
theorem only_declarations_bind {session : Session} (hs : session.Reachable) (fuel : Nat) (clock : Nat → Float)
    {source : Bytes} (hsource : (analyze source).reports = []) :
    let run := session.evaluation fuel clock source
    (∀ n e m, Visits run ⟨n, .expr e, m⟩ → ∀ id < m.heap.scopes.all.size,
      (evalExpr n e m).2.heap.scopes.names id = m.heap.scopes.names id) ∧
    (∀ n s m, Visits run ⟨n, .stmt s, m⟩ → s.declared? = none → ∀ id < m.heap.scopes.all.size,
      (execStmt n s m).2.heap.scopes.names id = m.heap.scopes.names id) ∧
    (∀ n s m name, Visits run ⟨n, .stmt s, m⟩ → s.declared? = some name → ∀ id < m.heap.scopes.all.size,
      m.heap.scopes.names id ⊆ (execStmt n s m).2.heap.scopes.names id ∧
      (execStmt n s m).2.heap.scopes.names id ⊆ insert name (m.heap.scopes.names id) ∧
      (id ≠ m.scope → (execStmt n s m).2.heap.scopes.names id = m.heap.scopes.names id)) ∧
    run.trace.Pairwise (fun m m' => ∀ id name, m.heap.scopes.Resolves id name → m'.heap.scopes.Resolves id name) ∧
    ∀ later : Session, (session.run fuel clock source).2.Before later →
      ∀ fuel' clock' source', (analyze source').reports = [] →
        ∀ m ∈ run.trace, ∀ m' ∈ (later.evaluation fuel' clock' source').trace, ∀ id name,
          m.heap.scopes.Resolves id name → m'.heap.scopes.Resolves id name := by
  intro run
  refine ⟨fun n e m he id hid => ?_, fun n s m hv hnone id hid => ?_, fun n s m name hv hname id hid => ?_, ?_, ?_⟩
  · exact (hs.gains hsource he).names_eq hid fun _ hb => hb.2
  · refine (hs.gains hsource hv).names_eq hid fun name hb => ?_
    cases hnone.symm.trans hb.2
  · have hgains := hs.gains hsource hv
    refine ⟨hgains.names_subset id, fun other hother => ?_, fun hne => hgains.names_eq hid fun _ hb => hne hb.1⟩
    rcases hgains.subset_names hid hother with hold | hb
    · exact Set.mem_insert_of_mem name hold
    · cases hname.symm.trans hb.2
      exact Set.mem_insert name _
  · exact run.between_gains.ordered.imp fun hgains id name => hgains.resolves
  · intro later hlater fuel' clock' source' hsource' m hm m' hm' id name
    have hgains := hlater.traces (R := fun h h' => h.scopes.Gains (fun _ _ => True) h'.scopes) (fun h => .refl _ h.scopes)
      (fun _ _ _ h h' => h.trans h' fun _ _ _ _ => trivial) (fun _ _ _ _ _ => Evaluation.between_gains _) hs hsource
      hsource' hm hm'
    exact hgains.resolves

/-- The names of all scopes, where a call is about to be made and after it. -/
def Evaluation.namesAround? : Evaluation → Option (List (List Bytes) × List (List Bytes))
  | ⟨n, .expr (.call f args line), m⟩ =>
    some (m.heap.scopes.all.toList.map (·.bindings.names),
      (evalExpr n (.call f args line) m).2.heap.scopes.all.toList.map (·.bindings.names))
  | _ => none

/-- A function that declares a variable, assigns another, and fails. -/
def failingCallText : Bytes := utf8 "var a = \"one\"; fun f() \x7b var b = a; a = b; b(); \x7d f(); var c;"

/-- The scope of the call comes to bind a name, and the globals stay as they were. -/
theorem only_declarations_bind_failing_call :
    (analyze failingCallText).reports = [] ∧ ∃ n f args line m,
      Visits (Session.fresh.evaluation 20 (fun _ => 0) failingCallText) ⟨n, .expr (.call f args line), m⟩ ∧
      m.heap.scopes.all.toList.map (·.bindings.names) = [[utf8 "clock", utf8 "a", utf8 "f"]] ∧
      (evalExpr n (.call f args line) m).2.heap.scopes.all.toList.map (·.bindings.names) =
        [[utf8 "clock", utf8 "a", utf8 "f"], [utf8 "b"]] ∧
      (evalExpr n (.call f args line) m).2.heap.scopes.names Heap.globals = m.heap.scopes.names Heap.globals := by
  have hsource : (analyze failingCallText).reports = [] := by decide +kernel
  have hpath : ((Session.fresh.evaluation 20 (fun _ => 0) failingCallText).descend [1, 1, 0, 0]).bind
      Evaluation.namesAround? =
      some ([[utf8 "clock", utf8 "a", utf8 "f"]], [[utf8 "clock", utf8 "a", utf8 "f"], [utf8 "b"]]) := by decide +kernel
  obtain ⟨e, he, hnames⟩ := Option.bind_eq_some_iff.mp hpath
  have hvisits := Evaluation.descend_visits he
  unfold Evaluation.namesAround? at hnames
  split at hnames
  · rename_i n f args line m
    obtain ⟨hbefore, hafter⟩ := Prod.mk.inj (Option.some.inj hnames)
    have hsize : Heap.globals < m.heap.scopes.all.size := by
      have hlength := congrArg List.length hbefore
      rw [List.length_map, Array.length_toList] at hlength
      exact hlength ▸ Nat.zero_lt_one
    exact ⟨hsource, n, f, args, line, m, hvisits, hbefore, hafter,
      (only_declarations_bind .fresh 20 (fun _ => 0) hsource).1 _ _ m hvisits Heap.globals hsize⟩
  · cases hnames

end Lox
