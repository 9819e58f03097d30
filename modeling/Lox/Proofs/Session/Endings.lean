/-
  Lox.Proofs.Session.Endings — the ways in which a run ends. It completes without a report;
  it is rejected with all reports on the text, and then nothing has happened; or it fails
  with one report, the last thing that it shows. Every run that comes to an end does so in
  exactly one of these ways, and the bound has no say in which (`run_ends_one_way`). The tree and
  the tokens of a text are found without running it, and the tree is refused exactly if the
  text is rejected.
-/

import Lox.Proofs.Eval.Bound
import Lox.Proofs.Lexical.Scan
import Lox.Proofs.Parser.Reports
import Lox.Proofs.Session.Run
import Lox.Shell

namespace Lox

/-! ## Ways to end -/

structure Completed (step : Step Unit) : Prop where
  result : step.result = .done
  exit : step.result.exitCode? = some 0 ∧ step.result.message? = none
  silent : step.reports = []

/-- The text has faults. Nothing was run. -/
structure Rejected (session : Session) (step : Step Unit) (next : Session) : Prop where
  result : step.result = .staticFaults step.reports.length
  exit : step.result.exitCode? = some 65 ∧ step.result.message? =
    some (utf8 "static errors reported: " ++ Text.decimal step.reports.length ++ utf8 " error(s)")
  nonempty : 1 ≤ step.reports.length
  ordered : ∃ lexical syntactic, step.reports = lexical ++ syntactic ∧
    (∀ r ∈ lexical, r.Lexical) ∧ ∀ r ∈ syntactic, r.Syntactic
  printed : step.printed = []
  kept : next = session

/-- The running program came to a fault. Nothing is printed after the one report of it. -/
structure Failed (error : RuntimeError) (step : Step Unit) : Prop where
  result : step.result = .failed error
  exit : step.result.exitCode? = some 70 ∧ step.result.message? = some error.text
  reported : ∃ before report after, step.events = before ++ .reported report :: after ∧ step.reports = [report] ∧
    report.line = error.line ∧ report.place.text = [] ∧ report.fault.message = error.fault.message ∧
    after.filterMap Event.printed? = []

theorem Rejected.static {session next : Session} {step : Step Unit} (h : Rejected session step next) :
    step.result = staticResult step.reports.length := by
  rw [staticResult, if_neg (Nat.ne_of_gt h.nonempty)]
  exact h.result

inductive Ending where
  | completed
  | rejected
  | failed (error : RuntimeError)

/-- A run on the session that shows `step` and leaves `next` ends in this way. -/
def Ending.Describes (session : Session) (step : Step Unit) (next : Session) : Ending → Prop
  | .completed => Completed step
  | .rejected => Rejected session step next
  | .failed error => Failed error step

/-- No step ends in two ways. -/
theorem Ending.Describes.unique {session next : Session} {step : Step Unit} {ending other : Ending}
    (h : ending.Describes session step next) (h' : other.Describes session step next) : other = ending := by
  have hresult : ∀ {e : Ending}, e.Describes session step next → step.result = match e with
      | .completed => .done
      | .rejected => .staticFaults step.reports.length
      | .failed error => .failed error := by
    intro e he
    cases e with
    | completed => exact Completed.result he
    | rejected => exact Rejected.result he
    | failed error => exact Failed.result he
  have heq := (hresult h').symm.trans (hresult h)
  cases ending <;> cases other <;> cases heq <;> rfl

/-! ## Texts with faults -/

theorem scan_reports (source : Bytes) : ∀ r ∈ (scan source).reports, r.Lexical := by
  unfold scan
  generalize 1 = line
  induction Segment.split source generalizing line with
  | nil => exact fun r hr => absurd hr List.not_mem_nil
  | cons s segments ih =>
    intro r hr
    rw [Scan.ofSegments_cons] at hr
    rcases List.mem_append.mp hr with hr | hr
    · unfold Scan.reportAt at hr
      split at hr
      · exact ⟨_, by rw [List.mem_singleton.mp hr]⟩
      · exact ⟨_, by rw [List.mem_singleton.mp hr]⟩
      · cases hr
    · exact ih _ r hr

theorem reported_show (reports : List Report) :
    (reports.map Event.reported).filterMap Event.reported? = reports ∧
      (reports.map Event.reported).filterMap Event.printed? = [] := by
  induction reports with
  | nil => exact ⟨rfl, rfl⟩
  | cons r reports ih => exact ⟨congrArg (r :: ·) ih.1, ih.2⟩

/-- The events on the way to a program are its reports and log entries. -/
theorem analyze_events (source : Bytes) :
    (analyze source).events.filterMap Event.reported? = (analyze source).reports ∧
      (analyze source).events.filterMap Event.printed? = [] := by
  obtain ⟨hscan, hscan'⟩ := reported_show (scan source).reports
  obtain ⟨hparse, hparse'⟩ := reported_show (parse (scan source).tokens (scan source).endLine).reports
  rw [analyze_eq]
  dsimp only
  rw [List.filterMap_append, List.filterMap_append, List.filterMap_append, hscan, hparse]
  rw [List.filterMap_append, List.filterMap_append, List.filterMap_append, hscan', hparse']
  constructor
  · show _ ++ [] ++ _ ++ [] = _
    rw [List.append_nil, List.append_nil]
  · rfl

namespace Session

variable (session : Session) (fuel : Nat) (clock : Nat → Float) {source : Bytes}

theorem run_of_faults_reports (h : (analyze source).reports ≠ []) :
    (session.run fuel clock source).1.reports = (analyze source).reports := by
  rw [run_of_faults session fuel clock h]
  exact (analyze_events source).1

theorem run_rejected (h : (analyze source).reports ≠ []) :
    Rejected session (session.run fuel clock source).1 (session.run fuel clock source).2 := by
  have hreports := run_of_faults_reports session fuel clock h
  have hrun := run_of_faults session fuel clock h
  have hresult : (session.run fuel clock source).1.result = .staticFaults (analyze source).reports.length := by
    rw [hrun]
  refine ⟨?_, ?_, ?_, ?_, ?_, by rw [hrun]⟩
  · rw [hresult, hreports]
  · rw [hresult, hreports]
    exact ⟨rfl, rfl⟩
  · rw [hreports]
    exact List.length_pos_iff.mpr h
  · rw [hreports]
    exact ⟨(scan source).reports, _, analyze_reports source, scan_reports source, fun r hr => (parse_reports _ _ r hr).1⟩
  · rw [hrun]
    exact (analyze_events source).2

/-! ## Texts without faults -/

variable {session fuel clock}

/-- A run does what its statements do, and what it shows of a fault comes last. -/
theorem run_describes (h : (analyze source).reports = [])
    (hend : (session.run fuel clock source).1.result ≠ .exhausted) :
    ∃ ending, Ending.Describes session (session.run fuel clock source).1 (session.run fuel clock source).2 ending := by
  obtain ⟨-, hreports, hresult, -⟩ := session.run_shows fuel clock h
  rcases hout : session.outcome fuel clock source with ⟨outcome, m⟩
  rw [hout] at hreports hresult
  match outcome with
  | .ok () =>
    refine ⟨.completed, hresult, ?_, hreports⟩
    rw [hresult]
    exact ⟨rfl, rfl⟩
  | .error (.fault e) =>
    refine ⟨.failed e, hresult, ?_, ?_⟩
    · rw [hresult]
      exact ⟨rfl, rfl⟩
    · refine ⟨(analyze source).events ++ m.printed.toList.map Event.printed, e.report, [.logged (.runAborted e)], ?_,
        hreports, rfl, rfl, rfl, rfl⟩
      have hexec : execProgram fuel (analyze source).statements { heap := session.heap, clock } =
          (.error (.fault e), m) := hout
      rw [run_of_valid session fuel clock h]
      simp only [Session.execute, hexec, List.append_assoc]
  | .error .exhausted => exact absurd hresult hend

/-- A text without faults is not refused. -/
theorem run_not_rejected (h : (analyze source).reports = []) {n : Nat} :
    (session.run fuel clock source).1.result ≠ .staticFaults n := by
  obtain ⟨-, -, hresult, -⟩ := session.run_shows fuel clock h
  rw [hresult]
  unfold Result.ofOutcome
  split <;> nofun

/-- With a larger bound, a run that came to an end does the same. -/
theorem run_bound {more : Nat} (hle : fuel ≤ more) (hend : (session.run fuel clock source).1.result ≠ .exhausted) :
    session.run more clock source = session.run fuel clock source := by
  by_cases h : (analyze source).reports = []
  · have hout : execProgram more (analyze source).statements { heap := session.heap, clock } =
        execProgram fuel (analyze source).statements { heap := session.heap, clock } := by
      rcases execProgram_below hle (analyze source).statements { heap := session.heap, clock } with hout | hsame
      · obtain ⟨-, -, hresult, -⟩ := session.run_shows fuel clock h
        rw [Session.outcome, hout] at hresult
        exact absurd hresult hend
      · exact hsame
    rw [run_of_valid session more clock h, run_of_valid session fuel clock h]
    simp only [Session.execute, hout]
  · rw [run_of_faults session more clock h, run_of_faults session fuel clock h]

/-- Before it ends, a run has nothing to report. -/
theorem run_unended (h : (session.run fuel clock source).1.result = .exhausted) :
    (session.run fuel clock source).1.reports = [] := by
  by_cases hvalid : (analyze source).reports = []
  · obtain ⟨-, hreports, hresult, -⟩ := session.run_shows fuel clock hvalid
    rw [hreports, ← hresult, h]
    rfl
  · rw [run_of_faults session fuel clock hvalid] at h
    cases h

end Session

/-! ## Trees and tokens -/

/-- A step that reads a text and runs nothing. -/
structure Static {α : Type} (step : Step α) : Prop where
  result : step.result = staticResult step.reports.length
  reports : ∀ r ∈ step.reports, r.Lexical ∨ r.Syntactic
  printed : step.printed = []

theorem tokens_reports (source : Bytes) : (Session.tokens source).reports = (scan source).reports := by
  unfold Session.tokens Step.reports
  dsimp only
  rw [List.filterMap_append, (reported_show (scan source).reports).1]
  exact List.append_nil _

theorem tokens_static (source : Bytes) : Static (Session.tokens source) := by
  obtain ⟨-, hprinted⟩ := reported_show (scan source).reports
  have hreports := tokens_reports source
  refine ⟨?_, ?_, ?_⟩
  · rw [hreports, ← scan_errors]
    rfl
  · rw [hreports]
    exact fun r hr => .inl (scan_reports source r hr)
  · unfold Session.tokens Step.printed
    dsimp only
    rw [List.filterMap_append, hprinted]
    rfl

theorem tree_reports (source : Bytes) : (Session.tree source).reports = (analyze source).reports :=
  (analyze_events source).1

theorem tree_static (source : Bytes) : Static (Session.tree source) := by
  refine ⟨?_, ?_, (analyze_events source).2⟩
  · rw [tree_reports, ← analyze_errors]
    rfl
  · rw [tree_reports, analyze_reports]
    intro r hr
    rcases List.mem_append.mp hr with hr | hr
    · exact .inl (scan_reports source r hr)
    · exact .inr (parse_reports _ _ r hr).1

theorem tree_refused_iff (source : Bytes) : (Session.tree source).result ≠ .done ↔ (analyze source).reports ≠ [] := by
  rw [(tree_static source).result, tree_reports, staticResult]
  by_cases h : (analyze source).reports = []
  · simp [h]
  · simp [h]

/-- Every run that comes to an end completes, is rejected or fails, and just one of these; no
larger bound changes what it does. Until then it has nothing to report. As many errors are counted
as reports are made. The tree and the tokens of the text are found without running it, and leave
the session alone; the tree is refused exactly if runs of the text are rejected, and for the
same reasons. -/
theorem run_ends_one_way (session : Session) (clock : Nat → Float) (source : Bytes) :
    (∀ fuel, (session.run fuel clock source).1.result ≠ .exhausted →
      (∃ ending, Ending.Describes session (session.run fuel clock source).1 (session.run fuel clock source).2 ending ∧
        ∀ other, Ending.Describes session (session.run fuel clock source).1 (session.run fuel clock source).2 other →
          other = ending) ∧
      ∀ more, fuel ≤ more → session.run more clock source = session.run fuel clock source) ∧
    (∀ fuel, (session.run fuel clock source).1.result = .exhausted → (session.run fuel clock source).1.reports = []) ∧
    ((scan source).errors = (Session.tokens source).reports.length ∧
      (analyze source).errors = (Session.tree source).reports.length) ∧
    Static (Session.tokens source) ∧ Static (Session.tree source) ∧
    (∀ world look, (Shell.obey world look session (.tokens source)).session = session ∧
      (Shell.obey world look session (.tree source)).session = session) ∧
    ∀ fuel, ((Session.tree source).result ≠ .done ↔
        Rejected session (session.run fuel clock source).1 (session.run fuel clock source).2) ∧
      ((Session.tree source).result ≠ .done →
        (Session.tree source).reports = (session.run fuel clock source).1.reports ∧
        (Session.tree source).result = (session.run fuel clock source).1.result) := by
  refine ⟨?_, fun fuel => Session.run_unended, ⟨?_, ?_⟩, tokens_static source, tree_static source,
    fun _ _ => ⟨rfl, rfl⟩, ?_⟩
  · intro fuel hend
    refine ⟨?_, fun more hle => Session.run_bound hle hend⟩
    by_cases h : (analyze source).reports = []
    · obtain ⟨ending, hending⟩ := Session.run_describes h hend
      exact ⟨ending, hending, fun other => hending.unique⟩
    · have hrejected : Ending.Describes session _ _ .rejected := Session.run_rejected session fuel clock h
      exact ⟨.rejected, hrejected, fun other => hrejected.unique⟩
  · rw [tokens_reports, scan_errors]
  · rw [tree_reports, analyze_errors]
  · intro fuel
    rw [tree_refused_iff]
    refine ⟨⟨fun h => Session.run_rejected session fuel clock h, ?_⟩, ?_⟩
    · intro hrejected h
      exact Session.run_not_rejected h hrejected.result
    · intro h
      rw [tree_reports, Session.run_of_faults_reports session fuel clock h, Session.run_of_faults session fuel clock h,
        (tree_static source).result, tree_reports, staticResult, if_neg (mt List.length_eq_zero_iff.mp h)]
      exact ⟨rfl, rfl⟩

def failingText : Bytes := utf8 "print \"a\"; print -\"b\"; print \"c\";"

def faultyText : Bytes := utf8 "print \"a\"; @\nprint \"b\""

theorem run_ends_one_way_samples :
    Completed (Session.fresh.run 9 (fun _ => 0) (utf8 "print \"a\";")).1 ∧
      Rejected .fresh (Session.fresh.run 9 (fun _ => 0) faultyText).1 (Session.fresh.run 9 (fun _ => 0) faultyText).2 ∧
      Failed ⟨1, .operandNotNumber⟩ (Session.fresh.run 9 (fun _ => 0) failingText).1 := by
  refine ⟨?_, ?_, ?_⟩
  · have hresult : (Session.fresh.run 9 (fun _ => 0) (utf8 "print \"a\";")).1.result = .done := by decide +kernel
    obtain ⟨⟨ending, hending, -⟩, -⟩ := (run_ends_one_way .fresh (fun _ => 0) (utf8 "print \"a\";")).1 9
      (by rw [hresult]; nofun)
    cases ending with
    | completed => exact hending
    | rejected => cases hresult.symm.trans (Rejected.result hending)
    | failed error => cases hresult.symm.trans (Failed.result hending)
  · have hrefused : (Session.tree faultyText).result ≠ .done := by decide +kernel
    exact ((run_ends_one_way .fresh (fun _ => 0) faultyText).2.2.2.2.2.2 9).1.mp hrefused
  · have hresult : (Session.fresh.run 9 (fun _ => 0) failingText).1.result = .failed ⟨1, .operandNotNumber⟩ := by
      decide +kernel
    obtain ⟨⟨ending, hending, -⟩, -⟩ := (run_ends_one_way .fresh (fun _ => 0) failingText).1 9 (by rw [hresult]; nofun)
    cases ending with
    | completed => cases hresult.symm.trans (Completed.result hending)
    | rejected => cases hresult.symm.trans (Rejected.result hending)
    | failed error =>
      cases hresult.symm.trans (Failed.result hending)
      exact hending

end Lox
