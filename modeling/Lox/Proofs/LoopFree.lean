/-
  Lox.Proofs.LoopFree — only loops can keep a run from its end. Where no text of a session
  has a loop, all functions and methods that it leaves behind are free of loops and of some
  bounded size, whatever text they come from. So each run of such a text ends, with a bound
  that can be told before (`run_ends_without_loops`).
-/

import Lox.Proofs.Eval.Ends
import Lox.Proofs.Session.Endings
import Lox.Proofs.Superclass

namespace Lox

open Eval

/-! ## Texts without loops -/

def NoLoops (ts : List Token) : Prop := ∀ t ∈ ts, t.kind ≠ .while_ ∧ t.kind ≠ .for_

instance (ts : List Token) : Decidable (NoLoops ts) := inferInstanceAs (Decidable (∀ t ∈ ts, _))

theorem NoLoops.suffix {ts rest : List Token} (h : NoLoops ts) (hs : rest <:+ ts) : NoLoops rest :=
  fun t ht => h t (hs.subset ht)

theorem NoLoops.tail {t : Token} {ts : List Token} (h : NoLoops (t :: ts)) : NoLoops ts :=
  h.suffix (List.suffix_cons t ts)

theorem NoLoops.not_while {t : Token} {ts : List Token} (h : NoLoops (t :: ts)) : t.kind ≠ .while_ :=
  (h t List.mem_cons_self).1

theorem NoLoops.not_for {t : Token} {ts : List Token} (h : NoLoops (t :: ts)) : t.kind ≠ .for_ :=
  (h t List.mem_cons_self).2

namespace Grammar

theorem VarDecl.loopFree {ts rest : List Token} {s : Stmt} : VarDecl ts s rest → s.LoopFree
  | .mk _ _ _ _ => trivial

theorem ExpressionStmt.loopFree {ts rest : List Token} {s : Stmt} : ExpressionStmt ts s rest → s.LoopFree
  | .mk _ _ => trivial

mutual

/-- Only the keywords make loops. -/
theorem Statement.loopFree {nearest isOpen : Bool} {ts rest : List Token} {s : Stmt} :
    Statement nearest isOpen ts s rest → NoLoops ts → s.LoopFree
  | .expression h, _ => h.loopFree
  | .forLoop hk _ _ _ _ _ _ _, hts => absurd hk hts.not_for
  | .ifOnly _ _ hcond _ hbody, hts => hbody.loopFree (hts.tail.tail.suffix hcond.headed.suffix).tail
  | .ifElse _ _ hcond _ hbody _ _ helse, hts => by
    have hts₁ := (hts.tail.tail.suffix hcond.headed.suffix).tail
    exact ⟨hbody.loopFree hts₁, helse.loopFree (hts₁.suffix hbody.headed.suffix).tail⟩
  | .print _ _ _, _ => trivial
  | .ret _ _ _, _ => trivial
  | .whileLoop hk _ _ _ _, hts => absurd hk hts.not_while
  | .block _ h _, hts => h.loopFree hts.tail

theorem Declaration.loopFree {nearest isOpen : Bool} {ts rest : List Token} {s : Stmt} :
    Declaration nearest isOpen ts s rest → NoLoops ts → s.LoopFree
  | .classDecl _ _ hparent _ hmethods _, hts => by
    have hsuffix := hparent.suffix fun ⟨_, .mk _⟩ => suffix_of_cons (List.suffix_cons _ _)
    exact hmethods.loopFree (hts.tail.tail.suffix hsuffix).tail
  | .function _ h, hts => h.loopFree hts.tail
  | .var h, _ => h.loopFree
  | .statement h, hts => h.loopFree hts

theorem Declarations.loopFree {nearest : Bool} {ts rest : List Token} {ss : List Stmt} :
    Declarations nearest ts ss rest → NoLoops ts → Stmt.AllLoopFree ss
  | .nil, _ => trivial
  | .cons h h', hts => ⟨h.loopFree hts, h'.loopFree (hts.suffix h.headed.suffix)⟩

theorem Function.loopFree {nearest : Bool} {ts rest : List Token} {d : FunctionDecl} :
    Function nearest ts d rest → NoLoops ts → d.LoopFree
  | .mk _ _ hparams _ _ hbody _, hts => by
    have hsuffix := hparams.suffix fun h => h.headed.suffix
    exact hbody.loopFree (hts.tail.tail.suffix hsuffix).tail.tail

theorem Methods.loopFree {nearest : Bool} {ts rest : List Token} {ds : List FunctionDecl} :
    Methods nearest ts ds rest → NoLoops ts → FunctionDecl.AllLoopFree ds
  | .nil, _ => trivial
  | .cons h h', hts => ⟨h.loopFree hts, h'.loopFree (hts.suffix h.headed.suffix)⟩

end

end Grammar

/-- Without a loop's keyword in the text there is no loop in the tree. -/
theorem analyze_loopFree {source : Bytes} (h : (analyze source).reports = []) (hl : NoLoops (scan source).tokens) :
    Stmt.AllLoopFree (analyze source).statements :=
  (analyze_program h).1.loopFree hl

/-! ## Sessions without loops -/

namespace Session

/-- The sessions that runs of texts without loops lead to. -/
inductive LoopFree : Session → Prop
  | fresh : LoopFree .fresh
  | run {session : Session} (fuel : Nat) (clock : Nat → Float) (source : Bytes) :
      LoopFree session → NoLoops (scan source).tokens → LoopFree (session.run fuel clock source).2
  | reset {session : Session} : LoopFree session → LoopFree .fresh

variable {session : Session} {source : Bytes}

/-- Such sessions are sessions like any others. -/
theorem LoopFree.reachable (h : session.LoopFree) : session.Reachable := by
  induction h with
  | fresh => exact .fresh
  | run fuel clock source _ _ ih => exact .run fuel clock source ih
  | reset _ ih => exact .reset ih

/-- A text without loops, run where everything has at most this size. -/
theorem outcome_ends {size : Nat} (h : session.heap.Tame size) (hsource : (analyze source).reports = [])
    (hl : NoLoops (scan source).tokens) (hsize : sizeOf (analyze source).statements ≤ size) (fuel : Nat)
    (clock : Nat → Float) :
    Ends size (size + maxDepth * (size + 3) ≤ fuel) (execProgram fuel (analyze source).statements)
      { heap := session.heap, clock } :=
  execProgram_ends (m := { heap := session.heap, clock }) h (analyze_loopFree hsource hl) hsize

/-- Whatever texts there were, what they left behind is free of loops and of bounded size. -/
theorem LoopFree.tame (h : session.LoopFree) : ∃ size, session.heap.Tame size := by
  have hinitial : Heap.initial.Tame 0 :=
    ⟨fun id c hc => by simp [Heap.initial] at hc, fun id info name c hinfo => by simp [Heap.initial] at hinfo⟩
  induction h with
  | fresh => exact ⟨0, hinitial⟩
  | reset => exact ⟨0, hinitial⟩
  | @run session fuel clock source _ hl ih =>
    by_cases hsource : (analyze source).reports = []
    · obtain ⟨size, htame⟩ := ih
      obtain ⟨hrun, -, htame', -⟩ := outcome_ends (htame.mono (Nat.le_max_left size (sizeOf (analyze source).statements)))
        hsource hl (Nat.le_max_right size _) fuel clock
      refine ⟨max size (sizeOf (analyze source).statements), ?_⟩
      rw [(session.run_shows fuel clock hsource).2.2.2, Session.outcome, hrun]
      exact htame'
    · rw [session.run_of_fault fuel clock hsource]
      exact ih

/-- The bound for a text does not depend on the clock. -/
theorem LoopFree.run_ends (h : session.LoopFree) (hl : NoLoops (scan source).tokens) :
    ∃ bound, ∀ clock, (session.run bound clock source).1.result ≠ .exhausted := by
  by_cases hsource : (analyze source).reports = []
  · obtain ⟨size, htame⟩ := h.tame
    have htame := htame.mono (Nat.le_max_left size (sizeOf (analyze source).statements))
    have hsize := Nat.le_max_right size (sizeOf (analyze source).statements)
    generalize max size (sizeOf (analyze source).statements) = size at htame hsize
    refine ⟨size + maxDepth * (size + 3), fun clock => ?_⟩
    obtain ⟨hrun, hends, -, -⟩ := outcome_ends htame hsource hl hsize (size + maxDepth * (size + 3)) clock
    rw [(session.run_shows _ clock hsource).2.2.1, Session.outcome, hrun]
    intro hout
    refine hends (Nat.le_refl _) ?_
    rename_i r _
    cases r with
    | ok => cases hout
    | error halt =>
      cases halt with
      | fault e => cases hout
      | exhausted => rfl
  · exact ⟨0, fun clock => by simp [run_of_faults session 0 clock hsource]⟩

end Session

/-- In a session without loops, every run of a text without loops comes to an end, however
functions and methods call each other, and from some bound on all runs are the same. It is
rejected if the text has faults, and else completes or fails. On the way, scopes lie in
earlier scopes and classes descend from earlier ones, so no search along them goes in circles. -/
theorem run_ends_without_loops {session : Session} (h : session.LoopFree) (source : Bytes)
    (hl : NoLoops (scan source).tokens) :
    (∃ bound, ∀ clock, ∃ step next ending, Ending.Describes session step next ending ∧
      (ending = .rejected ↔ (analyze source).reports ≠ []) ∧
      ∀ fuel, bound ≤ fuel → session.run fuel clock source = (step, next)) ∧
    ((analyze source).reports = [] → ∀ fuel clock e, Visits (session.evaluation fuel clock source) e →
      e.machine.heap.scopes.Ordered ∧
      ∀ (id : ClassId) (info : ClassInfo) (parent : ClassId),
        e.machine.heap.classes[id]? = some info → info.superclass = some parent → parent < id) := by
  refine ⟨?_, fun hsource fuel clock e he => ?_⟩
  · obtain ⟨bound, hends⟩ := h.run_ends hl
    refine ⟨bound, fun clock => ⟨(session.run bound clock source).1, (session.run bound clock source).2, ?_⟩⟩
    have hsame : ∀ fuel, bound ≤ fuel → session.run fuel clock source = session.run bound clock source :=
      fun fuel hle => Session.run_bound hle (hends clock)
    by_cases hsource : (analyze source).reports = []
    · obtain ⟨ending, hending⟩ := Session.run_describes hsource (hends clock)
      refine ⟨ending, hending, ⟨?_, fun hne => absurd hsource hne⟩, hsame⟩
      rintro rfl
      exact absurd (Rejected.result hending) (Session.run_not_rejected hsource)
    · exact ⟨.rejected, Session.run_rejected session bound clock hsource, ⟨fun _ => hsource, fun _ => rfl⟩, hsame⟩
  · have hneat := (he.orderly (h.reachable.evaluation_orderly fuel clock hsource)).1.neat
    exact ⟨hneat.sound.ordered, hneat.orderly.older⟩

/-- A function that calls one not defined yet, and a method that calls it through the superclass. -/
def forwardText : Bytes :=
  utf8 "fun f() \x7b g(); \x7d class A \x7b m() \x7b f(); \x7d \x7d class B < A \x7b m() \x7b super.m(); \x7d \x7d"

/-- Calls in a circle, back through the functions and methods of the earlier text. -/
def circleText : Bytes := utf8 "fun g() \x7b B().m(); \x7d f();"

/-- Calls in a circle through two texts come to an end. -/
theorem run_ends_without_loops_circle :
    (Session.fresh.run 40 (fun _ => 0) forwardText).2.LoopFree ∧ NoLoops (scan circleText).tokens ∧
    (analyze circleText).reports = [] ∧
    ∃ bound, ∀ clock fuel, bound ≤ fuel →
      ((Session.fresh.run 40 (fun _ => 0) forwardText).2.run fuel clock circleText).1.result = .done ∨
      ∃ error, ((Session.fresh.run 40 (fun _ => 0) forwardText).2.run fuel clock circleText).1.result = .failed error := by
  have hsession := Session.LoopFree.run 40 (fun _ => 0) forwardText .fresh (by decide +kernel)
  have hl : NoLoops (scan circleText).tokens := by decide +kernel
  have hsource : (analyze circleText).reports = [] := by decide +kernel
  obtain ⟨bound, hends⟩ := (run_ends_without_loops hsession circleText hl).1
  refine ⟨hsession, hl, hsource, bound, fun clock fuel hle => ?_⟩
  obtain ⟨step, next, ending, hending, hrejected, hrun⟩ := hends clock
  rw [hrun fuel hle]
  cases ending with
  | completed => exact .inl (Completed.result hending)
  | rejected => exact absurd hsource (hrejected.mp rfl)
  | failed error => exact .inr ⟨error, Failed.result hending⟩

end Lox
