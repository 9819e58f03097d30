/-
  Lox.Proofs.Names — names matter only by equality. A session whose texts have other names
  goes the same way at every request: it ends a step with the same kind of result, reports
  the same faults at the same lines, and prints as many lines. The new names show in reports
  that quote one, in dumps, and in the lines that were printed for functions, classes and
  instances (`names_matter_by_equality`).

  The three passes come together here: scanning (`scan_source`), parsing (`parse_rename`) and
  evaluation (`execProgram_echoes`). Between two requests a session keeps only its heap, and
  the heaps of the two sessions are renamings of each other.
-/

import Lox.Proofs.Eval.Renamed
import Lox.Proofs.Parser.Renamed
import Lox.Proofs.Session.Endings
import Lox.Proofs.Session.Requests
import Lox.Proofs.StaticChecks
import Lox.Proofs.Token.Renamed

namespace Lox

variable (ρ : Renaming)

/-! ## Texts -/

theorem scan_kept (source : Bytes) : KeptTokens ρ (scan source).tokens :=
  fun t ht hkind => ρ.apply_other ((Lexical.scan_lexeme source t ht).not_identifier hkind)

/-- Lexical reports have no names in them. -/
theorem scan_reports_rename (source : Bytes) : (scan source).reports.map (Report.rename ρ) = (scan source).reports := by
  unfold scan
  generalize 1 = line
  induction Segment.split source generalizing line with
  | nil => rfl
  | cons s segments ih =>
    have hreport : (Scan.reportAt (line + s.newlines) s.kind).map (Report.rename ρ) =
        Scan.reportAt (line + s.newlines) s.kind := by
      unfold Scan.reportAt
      split <;> rfl
    simp only [Scan.ofSegments_cons, List.map_append, ih]
    rw [← Option.toList_map, hreport]

/-- A renamed text has the renamed tree, and its reports at the same places. -/
theorem analyze_rename (source : Bytes) :
    (analyze (ρ.source source)).statements = (analyze source).statements.map (Stmt.rename ρ) ∧
      (analyze (ρ.source source)).reports = (analyze source).reports.map (Report.rename ρ) := by
  rw [analyze_statements, analyze_statements, analyze_reports, analyze_reports, scan_source]
  dsimp only [Scan.rename]
  rw [parse_rename ρ (scan_kept ρ source), List.map_append, scan_reports_rename]
  exact ⟨rfl, rfl⟩

theorem analyze_valid_rename (source : Bytes) :
    (analyze (ρ.source source)).reports = [] ↔ (analyze source).reports = [] := by
  rw [(analyze_rename ρ source).2, List.map_eq_nil_iff]

/-! ## Steps -/

def Result.rename : Result → Result
  | .failed e => .failed (e.rename ρ)
  | result => result

theorem Result.ofOutcome_rename (outcome : Except Halt Unit) :
    Result.ofOutcome (outcome.mapError (Halt.rename ρ)) = (Result.ofOutcome outcome).rename ρ := by
  match outcome with
  | .ok () | .error (.fault _) | .error .exhausted => rfl

theorem Result.reports_rename (result : Result) : (result.rename ρ).reports = result.reports.map (Report.rename ρ) := by
  cases result <;> rfl

theorem staticResult_rename (errors : Nat) : (staticResult errors).rename ρ = staticResult errors := by
  unfold Lox.staticResult
  split <;> rfl

/-- The same kind of result, the same faults at the same lines, and as many lines printed. -/
structure Step.Echo {α : Type} (step step' : Step α) : Prop where
  result : step'.result = step.result.rename ρ
  reports : step'.reports = step.reports.map (Report.rename ρ)
  count : step'.printed.length = step.printed.length

/-- A step that reports on a text and runs nothing. -/
theorem Step.Echo.of_static {α : Type} {step step' : Step α} {reports : List Report}
    (h : step.reports = reports ∧ step.printed = [])
    (h' : step'.reports = reports.map (Report.rename ρ) ∧ step'.printed = [])
    (hresult : step.result = staticResult step.reports.length)
    (hresult' : step'.result = staticResult step'.reports.length) : step.Echo ρ step' where
  result := by rw [hresult', hresult, staticResult_rename, h'.1, h.1, List.length_map]
  reports := by rw [h'.1, h.1]
  count := by rw [h'.2, h.2]

/-- The answers of a session to a request and of its renaming to the renamed request. Each line
printed by the first shows the value that a print statement of the run printed there, and the
second shows that value under the new names. -/
inductive Answer.Echo (session : Session) : Request → Answer → Answer → Prop
  | ran {fuel : Nat} {clock : Nat → Float} {source : Bytes} {step step' : Step Unit} : step.Echo ρ step' →
      (∀ i line, step.printed[i]? = some line → ∃ h v, (session.evaluation fuel clock source).Prints i h v ∧
        line = h.render v ∧ step'.printed[i]? = some (h.renderAs ρ v)) →
      Echo session (.run fuel clock source) (.ran step) (.ran step')
  | tokens {source : Bytes} {step step' : Step (List Bytes)} : step.Echo ρ step' →
      step'.output = ((scan source).rename ρ).dump → Echo session (.tokens source) (.tokens step) (.tokens step')
  | tree {source : Bytes} {step step' : Step Bytes} : step.Echo ρ step' →
      step'.output = (if (analyze source).reports.isEmpty
        then renderProgram ((analyze source).statements.map (Stmt.rename ρ)) else []) →
      Echo session (.tree source) (.tree step) (.tree step')
  | reset : Echo session .reset .reset .reset

def Session.rename (session : Session) : Session := ⟨session.heap.rename ρ⟩

theorem Session.fresh_rename : Session.fresh.rename ρ = .fresh := congrArg Session.mk (Heap.initial_rename ρ)

section

variable (session : Session) (fuel : Nat) (clock : Nat → Float) (source : Bytes)

theorem outcome_echo : Eval.Echo ρ (session.evaluation fuel clock source) id (session.outcome fuel clock source)
    ((session.rename ρ).outcome fuel clock (ρ.source source)) := by
  unfold Session.outcome
  rw [(analyze_rename ρ source).1]
  have hstart : Visits (session.evaluation fuel clock source)
      ⟨fuel, .program (analyze source).statements, { heap := session.heap, clock }⟩ := .here
  refine execProgram_echoes hstart _ ⟨rfl, rfl, rfl, rfl, rfl, rfl, fun i line hline => ?_⟩
  simp at hline

/-- A run of the renamed text on the renamed session echoes the run. -/
theorem run_echo :
    Answer.Echo ρ session (.run fuel clock source) (.ran (session.run fuel clock source).1)
        (.ran ((session.rename ρ).run fuel clock (ρ.source source)).1) ∧
      ((session.rename ρ).run fuel clock (ρ.source source)).2 = (session.run fuel clock source).2.rename ρ := by
  by_cases hvalid : (analyze source).reports = []
  · obtain ⟨hprinted, hreports, hresult, hnext⟩ := session.run_shows fuel clock hvalid
    obtain ⟨hprinted', hreports', hresult', hnext'⟩ :=
      (session.rename ρ).run_shows fuel clock ((analyze_valid_rename ρ source).mpr hvalid)
    obtain ⟨houtcome, htwins⟩ := (outcome_echo ρ session fuel clock source).eq
    rw [houtcome, Result.ofOutcome_rename] at hreports' hresult'
    refine ⟨.ran ⟨?_, ?_, ?_⟩ fun i line hline => ?_, ?_⟩
    · rw [hresult', hresult]
    · rw [hreports', hreports, Result.reports_rename]
    · rw [hprinted', hprinted, Array.length_toList, Array.length_toList, htwins.count]
    · rw [hprinted, Array.getElem?_toList] at hline
      rw [hprinted', Array.getElem?_toList]
      exact htwins.lines i line hline
    · rw [hnext', hnext, htwins.heap]
      rfl
  · have hvalid' := mt (analyze_valid_rename ρ source).mp hvalid
    have hresult := (session.run_rejected fuel clock hvalid).static
    have hresult' := ((session.rename ρ).run_rejected fuel clock hvalid').static
    rw [session.run_of_faults fuel clock hvalid] at hresult ⊢
    rw [(session.rename ρ).run_of_faults fuel clock hvalid'] at hresult' ⊢
    have hevents := analyze_events (ρ.source source)
    rw [(analyze_rename ρ source).2] at hevents
    refine ⟨.ran (.of_static ρ (analyze_events source) hevents hresult hresult') fun i line hline => ?_, rfl⟩
    have hnone : ([] : List Bytes)[i]? = some line := (analyze_events source).2 ▸ hline
    cases hnone

theorem tokens_echo : Answer.Echo ρ session (.tokens source) (.tokens (Session.tokens source))
    (.tokens (Session.tokens (ρ.source source))) := by
  have hreports : (scan (ρ.source source)).reports = (scan source).reports.map (Report.rename ρ) := by
    rw [scan_source, scan_reports_rename]
    rfl
  have hstatic := tokens_static source
  have hstatic' := tokens_static (ρ.source source)
  refine .tokens (.of_static ρ ⟨tokens_reports source, hstatic.printed⟩ ⟨?_, hstatic'.printed⟩ hstatic.result
    hstatic'.result) ?_
  · rw [tokens_reports, hreports]
  · exact congrArg Scan.dump (scan_source ρ source)

theorem tree_echo : Answer.Echo ρ session (.tree source) (.tree (Session.tree source))
    (.tree (Session.tree (ρ.source source))) := by
  obtain ⟨hstatements, hreports⟩ := analyze_rename ρ source
  have hstatic := tree_static source
  have hstatic' := tree_static (ρ.source source)
  refine .tree (.of_static ρ ⟨tree_reports source, hstatic.printed⟩ ⟨?_, hstatic'.printed⟩ hstatic.result
    hstatic'.result) ?_
  · rw [tree_reports, hreports]
  · show (if (analyze (ρ.source source)).errors = 0 then _ else _) = _
    rw [analyze_errors, hreports, hstatements, List.length_map]
    simp only [List.length_eq_zero_iff, List.isEmpty_iff]

end

/-! ## Sessions -/

def Request.rename : Request → Request
  | .run fuel clock source => .run fuel clock (ρ.source source)
  | .tokens source => .tokens (ρ.source source)
  | .tree source => .tree (ρ.source source)
  | .reset => .reset

/-- So does every answer, and the sessions stay renamings of each other. -/
theorem answer_echo (session : Session) (request : Request) :
    Answer.Echo ρ session request (session.answer request).1 ((session.rename ρ).answer (request.rename ρ)).1 ∧
      ((session.rename ρ).answer (request.rename ρ)).2 = (session.answer request).2.rename ρ := by
  cases request with
  | run fuel clock source => exact run_echo ρ session fuel clock source
  | tokens source => exact ⟨tokens_echo ρ session source, rfl⟩
  | tree source => exact ⟨tree_echo ρ session source, rfl⟩
  | reset => exact ⟨.reset, (Session.fresh_rename ρ).symm⟩

theorem after_rename (session : Session) (requests : List Request) :
    (session.rename ρ).after (requests.map (Request.rename ρ)) = (session.after requests).rename ρ := by
  induction requests generalizing session with
  | nil => rfl
  | cons request rest ih =>
    rw [List.map_cons, Session.after, Session.after, (answer_echo ρ session request).2, ih]

/-- Whatever was asked of a session before, it answers a request under other names as it
would have done under the old ones. -/
theorem names_matter_by_equality (before : List Request) (request : Request) :
    Answer.Echo ρ (Session.fresh.after before) request ((Session.fresh.after before).answer request).1
      ((Session.fresh.after (before.map (Request.rename ρ))).answer (request.rename ρ)).1 := by
  have hafter := after_rename ρ .fresh before
  rw [Session.fresh_rename] at hafter
  rw [hafter]
  exact (answer_echo ρ _ request).1

/-- A class of an earlier text under its other name, and the fault that quotes a name. -/
theorem names_matter_by_equality_across_runs :
    let ρ := Renaming.exchange (utf8 "Cake") (utf8 "x") (by decide) (by decide) (by decide) (by decide)
    let declared := Request.run 9 (fun _ => 0) (utf8 "class Cake \x7b init() \x7b this.x = 1; \x7d \x7d")
    let used := utf8 "var c = Cake(); print \"Cake\"; print c; print x;"
    let session := Session.fresh.after [declared]
    let session' := Session.fresh.after [declared.rename ρ]
    ρ.source used = utf8 "var c = x(); print \"Cake\"; print c; print Cake;" ∧
      (session.run 9 (fun _ => 0) used).1.printed = [utf8 "Cake", utf8 "Cake instance"] ∧
      (session.run 9 (fun _ => 0) used).1.result = .failed ⟨1, .undefinedVariable (utf8 "x")⟩ ∧
      Answer.Echo ρ session (.run 9 (fun _ => 0) used) (.ran (session.run 9 (fun _ => 0) used).1)
        (.ran (session'.run 9 (fun _ => 0) (ρ.source used)).1) := by
  intro ρ declared used session session'
  refine ⟨by decide +kernel, by decide +kernel, by decide +kernel, ?_⟩
  exact names_matter_by_equality ρ [declared] (.run 9 (fun _ => 0) used)

end Lox
