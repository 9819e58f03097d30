/-
  Lox.Proofs.Session.Later — from one run of a session to the next. A run starts from the heap
  that the run before it has left, so what each run keeps along its trace is kept from any
  machine of a run to any machine of a later one (`Before.traces`).
-/

import Lox.Proofs.Eval.Trace
import Lox.Proofs.Superclass

namespace Lox.Session

/-- A session goes on from the heap that the statements leave. -/
theorem run_heap (session : Session) (fuel : Nat) (clock : Nat → Float) {source : Bytes}
    (h : (analyze source).reports = []) :
    (session.run fuel clock source).2.heap = (session.evaluation fuel clock source).final.heap :=
  congrArg Session.heap (session.run_shows fuel clock h).2.2.2

section

variable {R : Heap → Heap → Prop} (hrefl : ∀ h, R h h) (htrans : ∀ h h' h'', R h h' → R h' h'' → R h h'')
  (hruns : ∀ {session : Session} (fuel : Nat) (clock : Nat → Float) {source : Bytes}, session.Reachable →
    (analyze source).reports = [] → Evaluation.Between (fun m m' => R m.heap m'.heap)
      (session.evaluation fuel clock source).machine (session.evaluation fuel clock source).trace
      (session.evaluation fuel clock source).final)

include hrefl htrans hruns

/-- What one run does to the heap, all runs in between do. -/
theorem Before.heaps {earlier session : Session} (hs : earlier.Reachable) (h : earlier.Before session) :
    R earlier.heap session.heap := by
  induction h with
  | here => exact hrefl _
  | @run session fuel clock source hbefore ih =>
    by_cases hsource : (analyze source).reports = []
    · rw [run_heap session fuel clock hsource]
      exact htrans _ _ _ ih (hruns fuel clock (hbefore.reachable hs) hsource).ends
    · rw [session.run_of_fault fuel clock hsource]
      exact ih

theorem Before.traces {session later : Session} (hs : session.Reachable) {fuel fuel' : Nat} {clock clock' : Nat → Float}
    {source source' : Bytes} (hsource : (analyze source).reports = []) (hsource' : (analyze source').reports = [])
    (hlater : (session.run fuel clock source).2.Before later) {m m' : Machine}
    (hm : m ∈ (session.evaluation fuel clock source).trace) (hm' : m' ∈ (later.evaluation fuel' clock' source').trace) :
    R m.heap m'.heap := by
  have hnext := hs.run fuel clock source
  have hend := (hruns fuel clock hs hsource).before m hm
  have hbetween := hlater.heaps hrefl htrans hruns hnext
  rw [run_heap session fuel clock hsource] at hbetween
  have hstart := (hruns fuel' clock' (hlater.reachable hnext) hsource').after m' hm'
  exact htrans _ _ _ hend (htrans _ _ _ hbetween hstart)

end

end Lox.Session
