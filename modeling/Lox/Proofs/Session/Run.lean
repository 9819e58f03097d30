/-
  Lox.Proofs.Session.Run — sessions and what their runs show. What was counted is what was
  reported (`analyze_errors`), so a text is run exactly if nothing in it is reported. Then it
  does what its statements do, and adds neither prints nor reports of its own.
-/

import Lox.Proofs.Parser.Tally
import Lox.Proofs.Token.Append
import Lox.Session

namespace Lox

/-! ## The count of errors -/

/-- The count of the scan is the number of its reports. -/
theorem scan_errors (source : Bytes) : (scan source).errors = (scan source).reports.length :=
  Scan.errors_ofSegments _ _

/-- The parser does the same wherever the scanner's count has got to. -/
theorem analyze_eq (source : Bytes) :
    analyze source =
      let scanned := scan source
      let parsed := parse scanned.tokens scanned.endLine
      let errors := (scanned.reports ++ parsed.reports).length
      { statements := parsed.statements
        reports := scanned.reports ++ parsed.reports
        events := scanned.reports.map .reported
          ++ [.logged (.scanFinished (scanned.tokens.length + 1) scanned.endLine)]
          ++ parsed.reports.map .reported
          ++ [.logged (.parseFinished parsed.statements.length errors)]
        errors } := by
  unfold analyze
  dsimp only
  rw [parse_errors, scan_errors, List.length_append]

theorem analyze_statements (source : Bytes) :
    (analyze source).statements = (parse (scan source).tokens (scan source).endLine).statements := by
  rw [analyze_eq]

theorem analyze_reports (source : Bytes) :
    (analyze source).reports = (scan source).reports ++ (parse (scan source).tokens (scan source).endLine).reports := by
  rw [analyze_eq]

/-- Scanner and parser have counted one error for each of their reports. -/
theorem analyze_errors (source : Bytes) : (analyze source).errors = (analyze source).reports.length := by
  rw [analyze_eq]

theorem analyze_errors_eq_zero {source : Bytes} : (analyze source).errors = 0 ↔ (analyze source).reports = [] := by
  rw [analyze_errors, List.length_eq_zero_iff]

/-- A text is clean if neither its tokens nor its tree have faults. -/
theorem analyze_clean {source : Bytes} (h : (analyze source).reports = []) :
    (scan source).reports = [] ∧ (parse (scan source).tokens (scan source).endLine).reports = [] := by
  rw [analyze_reports] at h
  exact List.append_eq_nil_iff.mp h

/-! ## Sessions -/

/-- The sessions that any runs and resets lead to. -/
inductive Session.Reachable : Session → Prop
  | fresh : Reachable .fresh
  | run {session : Session} (fuel : Nat) (clock : Nat → Float) (source : Bytes) :
      Reachable session → Reachable (session.run fuel clock source).2
  | reset {session : Session} : Reachable session → Reachable .fresh

def Result.ofOutcome : Except Halt Unit → Result
  | .ok () => .done
  | .error (.fault e) => .failed e
  | .error .exhausted => .exhausted

def Result.reports : Result → List Report
  | .failed e => [e.report]
  | _ => []

namespace Session

variable (session : Session) (fuel : Nat) (clock : Nat → Float) (source : Bytes)

/-- How the statements of a text end on the heap of a session, and the machine they leave. -/
def outcome : Except Halt Unit × Machine :=
  execProgram fuel (analyze source).statements { heap := session.heap, clock }

def readings : Nat := (session.outcome fuel clock source).2.readings

variable {source}

theorem analyze_shows (h : (analyze source).reports = []) :
    (analyze source).events.filterMap Event.printed? = [] ∧ (analyze source).events.filterMap Event.reported? = [] := by
  obtain ⟨hscan, hparse⟩ := analyze_clean h
  rw [analyze_eq]
  simp only [hscan, hparse]
  exact ⟨rfl, rfl⟩

theorem printed_show (texts : List Bytes) :
    (texts.map Event.printed).filterMap Event.printed? = texts ∧
      (texts.map Event.printed).filterMap Event.reported? = [] := by
  induction texts with
  | nil => exact ⟨rfl, rfl⟩
  | cons text texts ih =>
    exact ⟨congrArg (text :: ·) ih.1, ih.2⟩

theorem execute_shows (statements : List Stmt) :
    let out := execProgram fuel statements { heap := session.heap, clock }
    (session.execute fuel clock statements).1.printed = out.2.printed.toList ∧
      (session.execute fuel clock statements).1.reports = (Result.ofOutcome out.1).reports ∧
      (session.execute fuel clock statements).1.result = .ofOutcome out.1 ∧
      (session.execute fuel clock statements).2 = ⟨out.2.heap⟩ := by
  unfold Session.execute
  rcases execProgram fuel statements { heap := session.heap, clock } with ⟨outcome, m⟩
  obtain ⟨hprinted, hreported⟩ := printed_show m.printed.toList
  unfold Step.printed Step.reports
  dsimp only
  match outcome with
  | .ok () =>
    rw [List.filterMap_append, List.filterMap_append, hprinted, hreported]
    exact ⟨List.append_nil _, rfl, rfl, rfl⟩
  | .error (.fault e) =>
    rw [List.filterMap_append, List.filterMap_append, hprinted, hreported]
    exact ⟨List.append_nil _, rfl, rfl, rfl⟩
  | .error .exhausted => exact ⟨hprinted, hreported, rfl, rfl⟩

/-- A text without faults does what its statements do. -/
theorem run_of_valid (h : (analyze source).reports = []) :
    session.run fuel clock source =
      ({ (session.execute fuel clock (analyze source).statements).1 with
          events := (analyze source).events ++ (session.execute fuel clock (analyze source).statements).1.events },
        (session.execute fuel clock (analyze source).statements).2) :=
  if_pos (analyze_errors_eq_zero.mpr h)

/-- A text with faults leaves the session as it was. -/
theorem run_of_faults (h : (analyze source).reports ≠ []) :
    session.run fuel clock source =
      ({ output := (), events := (analyze source).events, result := .staticFaults (analyze source).reports.length },
        session) := by
  have herrors : (analyze source).errors ≠ 0 := mt analyze_errors_eq_zero.mp h
  unfold Session.run staticResult
  dsimp only
  rw [if_neg herrors, if_neg herrors, analyze_errors]

theorem run_shows (h : (analyze source).reports = []) :
    (session.run fuel clock source).1.printed = (session.outcome fuel clock source).2.printed.toList ∧
      (session.run fuel clock source).1.reports = (Result.ofOutcome (session.outcome fuel clock source).1).reports ∧
      (session.run fuel clock source).1.result = .ofOutcome (session.outcome fuel clock source).1 ∧
      (session.run fuel clock source).2 = ⟨(session.outcome fuel clock source).2.heap⟩ := by
  obtain ⟨hprinted, hreports⟩ := analyze_shows h
  obtain ⟨hp, hr, hresult, hnext⟩ := execute_shows session fuel clock (analyze source).statements
  rw [run_of_valid session fuel clock h]
  refine ⟨?_, ?_, hresult, hnext⟩
  · show List.filterMap Event.printed? (_ ++ _) = _
    rw [List.filterMap_append, hprinted]
    exact hp
  · show List.filterMap Event.reported? (_ ++ _) = _
    rw [List.filterMap_append, hreports]
    exact hr

/-- A text with a static fault changes nothing. -/
theorem run_of_fault (h : (analyze source).reports ≠ []) : (session.run fuel clock source).2 = session := by
  rw [run_of_faults session fuel clock h]

end Session

end Lox
