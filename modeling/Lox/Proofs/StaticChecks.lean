/-
  Lox.Proofs.StaticChecks — what the parser checks about return, receiver and superclass is
  enough for the evaluator (`static_checks_sound`). It holds along a whole session: what an
  earlier text left behind is as sound as what a later one brings.
-/

import Lox.Proofs.Eval.Parts
import Lox.Proofs.Grammar.Acceptance
import Lox.Proofs.Session.Run

namespace Lox

open Eval

/-! ## Messages -/

/-- Only an undefined variable has such a message. -/
theorem message_eq_undefinedVariable {fault : RuntimeFault} {name : Bytes}
    (h : fault.message = utf8 "Undefined variable '" ++ name ++ utf8 "'.") : fault = .undefinedVariable name := by
  have hfirst : fault.message.take 1 = utf8 "U" := congrArg (List.take 1) h
  cases fault with
  | undefinedVariable other =>
    have h' : utf8 "Undefined variable '" ++ other ++ utf8 "'." = utf8 "Undefined variable '" ++ name ++ utf8 "'." := h
    rw [List.append_left_inj, List.append_right_inj] at h'
    rw [h']
  | undefinedProperty other =>
    have h' : utf8 "Undefined p" = utf8 "Undefined v" := congrArg (List.take 11) h
    exact absurd h' (by decide)
  | wrongArgumentCount expected got =>
    have h' : utf8 "E" = utf8 "U" := hfirst
    exact absurd h' (by decide)
  | _ => exact absurd hfirst (by decide)

theorem message_undefinedProperty (name : Bytes) :
    (RuntimeFault.undefinedProperty name).message ≠ utf8 "Superclass must be a class." ∧
      (RuntimeFault.undefinedProperty name).message ≠ utf8 "Only instances have properties." := by
  constructor
  · intro h
    have h' : utf8 "U" = utf8 "S" := congrArg (List.take 1) h
    exact absurd h' (by decide)
  · intro h
    have h' : utf8 "U" = utf8 "O" := congrArg (List.take 1) h
    exact absurd h' (by decide)

/-! ## Sessions -/

/-- The evaluation that running a text without static faults is. -/
def Session.evaluation (session : Session) (fuel : Nat) (clock : Nat → Float) (source : Bytes) : Evaluation :=
  ⟨fuel, .program (analyze source).statements, { heap := session.heap, clock }⟩

theorem initial_stands (clock : Nat → Float) : Machine.Stands { heap := Heap.initial, clock } .outside := by
  refine ⟨⟨?_, fun id c hc => ?_, fun id info name c hinfo => ?_⟩, Nat.zero_lt_one, fun h => absurd rfl h, nofun⟩
  · intro id scope outer hid henc
    match id, hid with
    | 0, hid =>
      cases hid
      cases henc
  · simp [Heap.initial] at hc
  · simp [Heap.initial] at hinfo

/-- A program that keeps the rules meets none of the faults they rule out. -/
theorem execProgram_fine {fuel : Nat} {program : List Stmt} {m : Machine} (h : m.Stands .outside)
    (hv : ValidProgram program) (hp : Stmt.AllPlain program) : Fine (execProgram fuel program) m fun _ _ => True := by
  induction program generalizing m with
  | nil => exact .pure h.sound trivial
  | cons s rest ih =>
    exact ((evaluates fuel).stmt h hv.1 hp.1).bind fun _ m₁ h₁ _ => ih (h.later h₁) hv.2 hp.2

/-- A text without static faults is a valid program of plain names. -/
theorem analyze_valid {source : Bytes} (h : (analyze source).reports = []) :
    ValidProgram (analyze source).statements ∧ Stmt.AllPlain (analyze source).statements := by
  obtain ⟨hprogram, hvalid⟩ := analyze_program h
  exact ⟨hvalid, hprogram.plain (scan_plain source)⟩

theorem Session.Reachable.stands {session : Session} (h : session.Reachable) (clock : Nat → Float) :
    Machine.Stands { heap := session.heap, clock } .outside := by
  induction h generalizing clock with
  | fresh => exact initial_stands clock
  | reset => exact initial_stands clock
  | @run session fuel clock' source _ ih =>
    by_cases hsource : (analyze source).reports = []
    · obtain ⟨hv, hp⟩ := analyze_valid hsource
      have hfine : Fine (execProgram fuel _) _ _ := execProgram_fine (ih clock') hv hp
      have hlater : Machine.Later { heap := session.heap, clock := clock' } (session.outcome fuel clock' source).2 := by
        unfold Session.outcome
        rcases hfine with ⟨hx, hlater, -⟩ | ⟨hx, hlater, -⟩
        · rw [hx]
          exact hlater
        · rw [hx]
          exact hlater
      rw [(session.run_shows fuel clock' hsource).2.2.2]
      exact ⟨hlater.sound, (ih clock').serves.mono (ih clock').sound.ordered hlater.extend⟩
    · rw [session.run_of_fault fuel clock' hsource]
      exact ih clock

/-! ## Soundness -/

theorem Session.Reachable.evaluation_sound {session : Session} (h : session.Reachable) (fuel : Nat)
    (clock : Nat → Float) {source : Bytes} (hsource : (analyze source).reports = []) :
    (session.evaluation fuel clock source).Sound :=
  ⟨h.stands clock, analyze_valid hsource⟩

/-- A run that fails does so for another reason than an undefined reserved word. -/
theorem Session.run_harmless {session : Session} (h : session.Reachable) {fuel : Nat} {clock : Nat → Float}
    {source : Bytes} (hsource : (analyze source).reports = []) {error : RuntimeError}
    (herror : (session.run fuel clock source).1.result = .failed error) (name : Bytes) (hn : Reserved name) :
    error.fault ≠ .undefinedVariable name := by
  obtain ⟨hv, hp⟩ := analyze_valid hsource
  have hfine : Fine (execProgram fuel _) _ _ := execProgram_fine (h.stands clock) hv hp
  rw [(session.run_shows fuel clock hsource).2.2.1, Session.outcome] at herror
  rcases hfine with ⟨hx, -, -⟩ | ⟨hx, -, hh⟩
  · rw [hx] at herror
    cases herror
  · rw [hx] at herror
    rename_i halt _
    cases halt with
    | exhausted => cases herror
    | fault e =>
      cases herror
      exact hh name hn

/-- Where a superclass may be spoken of, only the method can be missing. -/
theorem superMethod_error {m m' : Machine} (h : m.Stands .derived) {line : Nat} {method : Name} {error : RuntimeError}
    (herror : superMethod line method m = (.error (.fault error), m')) :
    error.fault = .undefinedProperty method.text := by
  obtain ⟨parent, receiver, hrun⟩ := superMethod_run h line method
  cases hfound : m.heap.method? parent method.text with
  | none =>
    rw [hrun, hfound] at herror
    cases herror
    rfl
  | some found =>
    rw [hrun, hfound] at herror
    cases herror

/-- In every session, the run of a text without static faults never finds the receiver or
the superclass undefined. Wherever it gets to an expression that speaks of the superclass,
that is a class, and the receiver is an object. No statement at the top level returns. -/
theorem static_checks_sound {session : Session} (h : session.Reachable) (fuel : Nat) (clock : Nat → Float)
    (source : Bytes) (hsource : (analyze source).reports = []) :
    (∀ error, (session.run fuel clock source).1.result = .failed error →
      error.fault.message ≠ utf8 "Undefined variable 'this'." ∧
      error.fault.message ≠ utf8 "Undefined variable 'super'.") ∧
    (∀ n line method m, Visits (session.evaluation fuel clock source) ⟨n, .expr (.super line method), m⟩ →
      ∀ error m', evalExpr n (.super line method) m = (.error (.fault error), m') →
        error.fault.message ≠ utf8 "Superclass must be a class." ∧
        error.fault.message ≠ utf8 "Only instances have properties.") ∧
    ∀ n statement rest m, Visits (session.evaluation fuel clock source) ⟨n, .program (statement :: rest), m⟩ →
      ∀ value m', execStmt n statement m ≠ (.ok (.returned value), m') := by
  have hsound := h.evaluation_sound fuel clock hsource
  refine ⟨fun error herror => ?_, fun n line method m hvisits error m' herror => ?_,
    fun n statement rest m hvisits value m' hreturns => ?_⟩
  · have hharmless := Session.run_harmless h hsource herror
    exact ⟨fun hm => hharmless thisName (.inl rfl) (message_eq_undefinedVariable hm),
      fun hm => hharmless superName (.inr rfl) (message_eq_undefinedVariable hm)⟩
  · obtain ⟨enclosing, hstands, hv, -⟩ := hvisits.sound hsound
    cases hv
    cases n with
    | zero => cases herror
    | succ n =>
      rw [superMethod_error hstands herror]
      exact message_undefinedProperty method.text
  · obtain ⟨hstands, hv, hp⟩ := hvisits.sound hsound
    obtain ⟨-, hnormal⟩ := ((evaluates n).stmt hstands hv.1 hp.1).later hreturns
    cases hnormal rfl

def subclassText : Bytes :=
  utf8 "class A \x7b m() \x7b print \"A\"; \x7d \x7d class B < A \x7b m() \x7b super.m(); \x7d \x7d"

/-- Calls a method of a class from an earlier text, and then fails. -/
def superCallText : Bytes := utf8 "B().m(); B().x;"

/-- The superclass is found from text to text, and the failure is another. -/
theorem static_checks_sound_superCall :
    (Session.fresh.run 40 (fun _ => 0) subclassText).2.Reachable ∧ (analyze superCallText).reports = [] ∧
    ((Session.fresh.run 40 (fun _ => 0) subclassText).2.run 40 (fun _ => 0) superCallText).1.printed = [utf8 "A"] ∧
    ((Session.fresh.run 40 (fun _ => 0) subclassText).2.run 40 (fun _ => 0) superCallText).1.result =
      .failed ⟨1, .undefinedProperty (utf8 "x")⟩ ∧
    (RuntimeFault.undefinedProperty (utf8 "x")).message ≠ utf8 "Undefined variable 'super'." := by
  have hreachable := Session.Reachable.run 40 (fun _ => 0) subclassText .fresh
  have hsource : (analyze superCallText).reports = [] := by decide +kernel
  have hresult : ((Session.fresh.run 40 (fun _ => 0) subclassText).2.run 40 (fun _ => 0) superCallText).1.result =
      .failed ⟨1, .undefinedProperty (utf8 "x")⟩ := by decide +kernel
  exact ⟨hreachable, hsource, by decide +kernel, hresult,
    ((static_checks_sound hreachable 40 (fun _ => 0) superCallText hsource).1 _ hresult).2⟩

end Lox
