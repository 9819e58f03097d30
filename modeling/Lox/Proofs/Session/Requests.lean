/-
  Lox.Proofs.Session.Requests — sessions step by step. A session is asked to run a text, to
  show its tokens or its tree, or to start afresh; it answers each request with what the
  step shows, and goes on from where the step leaves it.
-/

import Lox.Proofs.Session.Run

namespace Lox

/-- Every run has its own bound and its own readings of the clock. -/
inductive Request where
  | run (fuel : Nat) (clock : Nat → Float) (source : Bytes)
  | tokens (source : Bytes)
  | tree (source : Bytes)
  | reset

inductive Answer where
  | ran (step : Step Unit)
  | tokens (step : Step (List Bytes))
  | tree (step : Step Bytes)
  | reset

namespace Session

def answer (session : Session) : Request → Answer × Session
  | .run fuel clock source => (.ran (session.run fuel clock source).1, (session.run fuel clock source).2)
  | .tokens source => (.tokens (Session.tokens source), session)
  | .tree source => (.tree (Session.tree source), session)
  | .reset => (.reset, .fresh)

def answers (session : Session) : List Request → List Answer
  | [] => []
  | request :: rest => (session.answer request).1 :: (session.answer request).2.answers rest

def after (session : Session) : List Request → Session
  | [] => session
  | request :: rest => (session.answer request).2.after rest

end Session

/-- The last events of a run of so many statements that comes to this result. -/
def Result.closing (count : Nat) : Result → List Event
  | .done => [.logged (.runFinished count)]
  | .failed e => [.reported e.report, .logged (.runAborted e)]
  | .staticFaults _ | .exhausted => []

/-- Statements print, and then their end is told. -/
theorem Session.execute_eq (session : Session) (fuel : Nat) (clock : Nat → Float) (statements : List Stmt) :
    let out := execProgram fuel statements { heap := session.heap, clock }
    session.execute fuel clock statements =
      (⟨(), out.2.printed.toList.map Event.printed ++ (Result.ofOutcome out.1).closing statements.length,
        .ofOutcome out.1, out.2.readings⟩, ⟨out.2.heap⟩) := by
  unfold Session.execute
  rcases execProgram fuel statements { heap := session.heap, clock } with ⟨outcome, m⟩
  match outcome with
  | .ok () => rfl
  | .error (.fault e) => rfl
  | .error .exhausted =>
    dsimp only [Result.ofOutcome, Result.closing]
    rw [List.append_nil]

end Lox
