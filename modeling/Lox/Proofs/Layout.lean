/-
  Lox.Proofs.Layout — blanks, newlines and comments decide nothing. Two texts without
  lexical faults whose tokens agree in kind and lexeme differ in the lines of their tokens
  only. Lines are passed on by the parser and by evaluation (`parse_renumber`,
  `execProgram_parallel`), so with every line set to zero the two do the same: they have the
  same faults, the same tree, and runs that print the same and end the same way, on
  heaps that agree up to the lines in them (`run_alike`). Step by step this gives sessions
  that answer alike (`layout_decides_nothing`).
-/

import Lox.Proofs.Pieces
import Lox.Proofs.Session.Endings
import Lox.Proofs.Session.Requests
import Mathlib.Data.List.Forall2

namespace Lox

/-- Neither text has a lexical fault, and they have the same tokens but for the lines. -/
structure SameTokens (first second : Bytes) : Prop where
  clean : (scan first).reports = []
  clean' : (scan second).reports = []
  tokens : (scan first).tokens.map (fun t => (t.kind, t.lexeme)) = (scan second).tokens.map fun t => (t.kind, t.lexeme)

/-! ## Trees -/

section

variable (f : Nat → Nat)

mutual

theorem Expr.render_renumber : ∀ e : Expr, (e.renumber f).render = e.render
  | .literal _ | .var _ | .this _ | .super _ _ => rfl
  | .assign _ v => by simp only [Expr.renumber, Expr.render, Name.renumber_text, v.render_renumber]
  | .unary _ _ e => by simp only [Expr.renumber, Expr.render, e.render_renumber]
  | .binary _ _ l r => by simp only [Expr.renumber, Expr.render, l.render_renumber, r.render_renumber]
  | .logical _ l r => by simp only [Expr.renumber, Expr.render, l.render_renumber, r.render_renumber]
  | .call c args _ => by simp only [Expr.renumber, Expr.render, c.render_renumber, renderExprs_renumber args]
  | .get o _ => by simp only [Expr.renumber, Expr.render, Name.renumber_text, o.render_renumber]
  | .set o _ v => by
    simp only [Expr.renumber, Expr.render, Name.renumber_text, o.render_renumber, v.render_renumber]
  | .group e => by simp only [Expr.renumber, Expr.render, e.render_renumber]

theorem renderExprs_renumber : ∀ es : List Expr, renderExprs (Expr.renumberAll f es) = renderExprs es
  | [] => rfl
  | e :: es => by simp only [Expr.renumberAll, renderExprs, e.render_renumber, renderExprs_renumber es]

end

mutual

/-- Lines are not shown. -/
theorem Stmt.render_renumber : ∀ s : Stmt, (s.renumber f).render = s.render
  | .expression e => by simp only [Stmt.renumber, Stmt.render, e.render_renumber]
  | .print e => by simp only [Stmt.renumber, Stmt.render, e.render_renumber]
  | .var _ none => rfl
  | .var _ (some e) => by
    simp only [Stmt.renumber, Option.map_some, Stmt.render, Name.renumber_text, e.render_renumber]
  | .block body => by simp only [Stmt.renumber, Stmt.render, renderStmts_renumber body]
  | .ifElse c t none => by simp only [Stmt.renumber, Stmt.render, c.render_renumber, t.render_renumber]
  | .ifElse c t (some e) => by
    simp only [Stmt.renumber, Stmt.render, c.render_renumber, t.render_renumber, e.render_renumber]
  | .loop c b => by simp only [Stmt.renumber, Stmt.render, c.render_renumber, b.render_renumber]
  | .function d => by simp only [Stmt.renumber, Stmt.render, d.render_renumber]
  | .ret none => rfl
  | .ret (some e) => by simp only [Stmt.renumber, Option.map_some, Stmt.render, e.render_renumber]
  | .classDecl _ none methods => by
    simp only [Stmt.renumber, Option.map_none, Stmt.render, Name.renumber_text, renderMethods_renumber methods]
  | .classDecl _ (some _) methods => by
    simp only [Stmt.renumber, Option.map_some, Stmt.render, Name.renumber_text, renderMethods_renumber methods]

theorem FunctionDecl.render_renumber : ∀ d : FunctionDecl, (d.renumber f).render = d.render
  | .mk n params body => by
    have htexts : (params.map (Name.renumber f)).map Name.text = params.map Name.text := by
      rw [List.map_map]
      rfl
    simp only [FunctionDecl.renumber, FunctionDecl.render, Name.renumber_text, htexts, renderStmts_renumber body]

theorem renderStmts_renumber : ∀ ss : List Stmt, renderStmts (Stmt.renumberAll f ss) = renderStmts ss
  | [] => rfl
  | s :: ss => by simp only [Stmt.renumberAll, renderStmts, s.render_renumber, renderStmts_renumber ss]

theorem renderMethods_renumber : ∀ ds : List FunctionDecl, renderMethods (FunctionDecl.renumberAll f ds) = renderMethods ds
  | [] => rfl
  | d :: ds => by simp only [FunctionDecl.renumberAll, renderMethods, d.render_renumber, renderMethods_renumber ds]

end

end

/-! ## Steps -/

def LogEvent.renumber (f : Nat → Nat) : LogEvent → LogEvent
  | .scanFinished tokens lines => .scanFinished tokens (f lines)
  | .runAborted error => .runAborted (error.renumber f)
  | entry => entry

def Event.renumber (f : Nat → Nat) : Event → Event
  | .printed text => .printed text
  | .reported report => .reported (report.renumber f)
  | .logged entry => .logged (entry.renumber f)

/-- Two steps show the same in the same order, and end the same way, up to the lines. -/
structure Step.Alike {α : Type} (s s' : Step α) : Prop where
  events : s.events.map (Event.renumber erased) = s'.events.map (Event.renumber erased)
  printed : s.printed = s'.printed
  reports : s.reports.map (fun r => (r.place, r.fault)) = s'.reports.map fun r => (r.place, r.fault)
  result : s.result.unplaced = s'.result.unplaced

/-- Events that agree up to their lines print the same. -/
theorem printed_of_events {events events' : List Event}
    (h : events.map (Event.renumber erased) = events'.map (Event.renumber erased)) :
    events.filterMap Event.printed? = events'.filterMap Event.printed? := by
  have hkeeps : ∀ e : Event, (e.renumber erased).printed? = e.printed? := by
    intro e
    cases e <;> rfl
  have hmap : ∀ l : List Event, (l.map (Event.renumber erased)).filterMap Event.printed? = l.filterMap Event.printed? := by
    intro l
    rw [List.filterMap_map]
    exact congrArg (List.filterMap · l) (funext hkeeps)
  rw [← hmap, h, hmap]

theorem reports_of_events {events events' : List Event}
    (h : events.map (Event.renumber erased) = events'.map (Event.renumber erased)) :
    (events.filterMap Event.reported?).map (fun r => (r.place, r.fault)) =
      (events'.filterMap Event.reported?).map fun r => (r.place, r.fault) := by
  have hkeeps : ∀ e : Event, (e.renumber erased).reported?.map (fun r => (r.place, r.fault)) =
      e.reported?.map fun r => (r.place, r.fault) := by
    intro e
    cases e <;> rfl
  have hmap : ∀ l : List Event,
      ((l.map (Event.renumber erased)).filterMap Event.reported?).map (fun r => (r.place, r.fault)) =
        (l.filterMap Event.reported?).map fun r => (r.place, r.fault) := by
    intro l
    rw [List.map_filterMap, List.filterMap_map, List.map_filterMap]
    exact congrArg (List.filterMap · l) (funext hkeeps)
  rw [← hmap, h, hmap]

theorem Step.Alike.of_events {α : Type} {s s' : Step α}
    (h : s.events.map (Event.renumber erased) = s'.events.map (Event.renumber erased))
    (hresult : s.result.unplaced = s'.result.unplaced) : s.Alike s' :=
  ⟨h, printed_of_events h, reports_of_events h, hresult⟩

/-! ## Analysis -/

section

variable {first second : Bytes}

theorem SameTokens.erased_tokens (h : SameTokens first second) :
    (scan first).tokens.map (Token.renumber erased) = (scan second).tokens.map (Token.renumber erased) := by
  have hpair : ∀ t : Token, t.renumber erased = (fun p : TokenKind × Bytes => Token.mk p.1 p.2 0) (t.kind, t.lexeme) :=
    fun _ => rfl
  have hmap : ∀ ts : List Token, ts.map (Token.renumber erased) =
      (ts.map fun t => (t.kind, t.lexeme)).map fun p => Token.mk p.1 p.2 0 := by
    intro ts
    rw [List.map_map]
    exact List.map_congr_left fun t _ => hpair t
  rw [hmap, h.tokens, ← hmap]

/-- Texts with the same tokens have the same trees and reports, up to the lines. -/
theorem SameTokens.parsed (h : SameTokens first second) :
    (parse (scan first).tokens (scan first).endLine).renumber erased =
      (parse (scan second).tokens (scan second).endLine).renumber erased := by
  rw [← parse_renumber, ← parse_renumber, h.erased_tokens]

theorem SameTokens.statements (h : SameTokens first second) :
    (analyze first).statements.map (Stmt.renumber erased) = (analyze second).statements.map (Stmt.renumber erased) := by
  rw [analyze_statements, analyze_statements]
  exact congrArg Parsed.statements h.parsed

theorem SameTokens.reports (h : SameTokens first second) :
    (analyze first).reports.map (Report.renumber erased) = (analyze second).reports.map (Report.renumber erased) := by
  have hparsed := congrArg Parsed.reports h.parsed
  rw [analyze_reports, analyze_reports, h.clean, h.clean', List.nil_append, List.nil_append]
  exact hparsed

theorem SameTokens.reports_length (h : SameTokens first second) :
    (analyze first).reports.length = (analyze second).reports.length := by
  have hlength := congrArg List.length h.reports
  rwa [List.length_map, List.length_map] at hlength

/-- And one is valid if the other is. -/
theorem SameTokens.valid_iff (h : SameTokens first second) :
    (analyze first).reports = [] ↔ (analyze second).reports = [] := by
  rw [← List.length_eq_zero_iff, ← List.length_eq_zero_iff, h.reports_length]

theorem SameTokens.tokens_length (h : SameTokens first second) :
    (scan first).tokens.length = (scan second).tokens.length := by
  have hlength := congrArg List.length h.tokens
  rwa [List.length_map, List.length_map] at hlength

theorem reported_renumber (reports : List Report) :
    (reports.map Event.reported).map (Event.renumber erased) =
      (reports.map (Report.renumber erased)).map Event.reported := by
  rw [List.map_map, List.map_map]
  rfl

theorem SameTokens.events (h : SameTokens first second) :
    (analyze first).events.map (Event.renumber erased) = (analyze second).events.map (Event.renumber erased) := by
  have hreports := congrArg Parsed.reports h.parsed
  have hstatements := congrArg List.length (congrArg Parsed.statements h.parsed)
  have hcount := h.reports_length
  simp only [Parsed.renumber, List.length_map] at hreports hstatements
  rw [analyze_eq, analyze_eq] at hcount ⊢
  simp only [h.clean, h.clean', List.nil_append, List.map_nil, List.map_append, List.map_cons,
    reported_renumber, Event.renumber, LogEvent.renumber] at hcount ⊢
  rw [hreports, hstatements, h.tokens_length, hcount]

theorem SameTokens.errors (h : SameTokens first second) : (analyze first).errors = (analyze second).errors := by
  rw [analyze_errors, analyze_errors, h.reports_length]

/-! ## Steps that run nothing -/

def afterLine (line : Bytes) : Bytes := line.dropWhile (· != 32)

theorem afterLine_dumpWith (line : Nat) (name lexeme more : Bytes) :
    afterLine (Token.dumpWith line name lexeme ++ more) = utf8 " " ++ name ++ utf8 " " ++ lexeme ++ more := by
  have hblank : utf8 " " = [32] := by decide
  have hline : Token.dumpWith line name lexeme ++ more =
      Text.decimal line ++ 32 :: (name ++ 32 :: (lexeme ++ more)) := by
    simp [Token.dumpWith, hblank]
  unfold afterLine
  rw [hline, (Lexical.takeWhile_ne (Lexical.blank_not_mem_decimal line) _ (.inr rfl)).2]
  simp [hblank]

theorem afterLine_dump (t : Token) (f : Nat → Nat) : afterLine (t.renumber f).dump = afterLine t.dump := by
  have hbare : ∀ line, afterLine (Token.dumpWith line (utf8 t.kind.name) t.lexeme) =
      utf8 " " ++ utf8 t.kind.name ++ utf8 " " ++ t.lexeme := by
    intro line
    have hdump := afterLine_dumpWith line (utf8 t.kind.name) t.lexeme []
    rwa [List.append_nil, List.append_nil] at hdump
  unfold Token.dump
  simp only [Token.renumber_kind, Token.renumber_lexeme, Token.renumber_line]
  split
  · rw [List.append_assoc, List.append_assoc, afterLine_dumpWith, afterLine_dumpWith]
  · rw [List.append_assoc, List.append_assoc, afterLine_dumpWith, afterLine_dumpWith]
    rfl
  · rw [hbare, hbare]

theorem SameTokens.dump (h : SameTokens first second) :
    (Session.tokens first).output.map afterLine = (Session.tokens second).output.map afterLine := by
  have hmark : ∀ line, afterLine (Token.endMark line) = utf8 " " ++ utf8 "EOF" ++ utf8 " " := by
    intro line
    have hdump := afterLine_dumpWith line (utf8 "EOF") [] []
    rwa [List.append_nil, List.append_nil, List.append_nil] at hdump
  have hmap : ∀ ts : List Token, (ts.map Token.dump).map afterLine =
      (ts.map (Token.renumber erased)).map (afterLine ∘ Token.dump) := by
    intro ts
    rw [List.map_map, List.map_map]
    exact List.map_congr_left fun t _ => (afterLine_dump t erased).symm
  show ((scan first).dump).map afterLine = ((scan second).dump).map afterLine
  unfold Scan.dump
  rw [List.map_append, List.map_append, hmap, hmap, h.erased_tokens, List.map_singleton, List.map_singleton,
    hmark, hmark]

theorem SameTokens.tokens_alike (h : SameTokens first second) : (Session.tokens first).Alike (Session.tokens second) := by
  apply Step.Alike.of_events
  · unfold Session.tokens
    simp only [h.clean, h.clean', h.tokens_length, List.map_nil, List.nil_append, List.map_cons, Event.renumber,
      LogEvent.renumber]
  · show (staticResult _).unplaced = (staticResult _).unplaced
    rw [scan_errors, scan_errors, h.clean, h.clean']

theorem SameTokens.tree_alike (h : SameTokens first second) : (Session.tree first).Alike (Session.tree second) := by
  apply Step.Alike.of_events h.events
  show (staticResult _).unplaced = (staticResult _).unplaced
  rw [h.errors]

theorem SameTokens.tree_output (h : SameTokens first second) :
    (Session.tree first).output = (Session.tree second).output := by
  have hrender : ∀ statements : List Stmt,
      renderProgram (statements.map (Stmt.renumber erased)) = renderProgram statements := by
    intro statements
    unfold renderProgram
    rw [← Stmt.renumberAll_eq, renderStmts_renumber]
  unfold Session.tree
  simp only [h.errors, ← hrender (analyze first).statements, h.statements, hrender]

end

/-! ## Runs -/

/-- On heaps that agree up to lines, programs that agree up to lines do the same up to lines. -/
theorem execProgram_erased {heap heap' : Heap} {statements statements' : List Stmt}
    (hheap : heap.renumber erased = heap'.renumber erased)
    (h : statements.map (Stmt.renumber erased) = statements'.map (Stmt.renumber erased)) (fuel : Nat)
    (clock : Nat → Float) :
    let out := execProgram fuel statements { heap, clock }
    let out' := execProgram fuel statements' { heap := heap', clock }
    out.1.mapError (Halt.renumber erased) = out'.1.mapError (Halt.renumber erased) ∧
      out.2.printed = out'.2.printed ∧ out.2.heap.renumber erased = out'.2.heap.renumber erased := by
  intro out out'
  -- Both are compared with the run of the program whose lines are all zero.
  let l : Lead := ⟨erased, #[], 0, clock⟩
  have hout := (execProgram_parallel l fuel statements { heap, clock }
    fun i => congrArg clock (Nat.zero_add i)).eq.2
  have hout' := (execProgram_parallel l fuel statements' { heap := heap', clock }
    fun i => congrArg clock (Nat.zero_add i)).eq.2
  have hmachine : Machine.ahead { heap, clock } l = Machine.ahead { heap := heap', clock } l := by
    simp only [Machine.ahead, l, hheap]
  rw [hmachine, show statements.map (Stmt.renumber l.line) = statements'.map (Stmt.renumber l.line) from h, hout'] at hout
  obtain ⟨houtcome, hahead⟩ := Prod.mk.inj hout
  refine ⟨houtcome.symm, ?_, (congrArg Machine.heap hahead).symm⟩
  have hprinted := congrArg Machine.printed hahead
  simpa [Machine.ahead, l] using hprinted.symm

theorem closing_erased (count : Nat) (result : Result) :
    (result.closing count).map (Event.renumber erased) = result.unplaced.closing count := by
  cases result <;> rfl

section

variable {session session' : Session} (hheap : session.heap.renumber erased = session'.heap.renumber erased)
  (fuel : Nat) (clock : Nat → Float)

include hheap

theorem execute_alike {statements statements' : List Stmt}
    (h : statements.map (Stmt.renumber erased) = statements'.map (Stmt.renumber erased)) :
    let after := session.execute fuel clock statements
    let after' := session'.execute fuel clock statements'
    after.1.events.map (Event.renumber erased) = after'.1.events.map (Event.renumber erased) ∧
      after.1.result.unplaced = after'.1.result.unplaced ∧
      after.2.heap.renumber erased = after'.2.heap.renumber erased := by
  obtain ⟨houtcome, hprinted, hnext⟩ := execProgram_erased hheap h fuel clock
  have hlength : statements.length = statements'.length := by
    have hmap := congrArg List.length h
    rwa [List.length_map, List.length_map] at hmap
  have hresult := congrArg Result.ofOutcome houtcome
  rw [← Result.unplaced_ofOutcome, ← Result.unplaced_ofOutcome] at hresult
  intro after after'
  simp only [after, after', Session.execute_eq]
  refine ⟨?_, hresult, hnext⟩
  rw [List.map_append, List.map_append, closing_erased, closing_erased, hprinted, hresult, hlength]

/-- Runs of such texts show the same, and leave heaps that agree up to the lines. -/
theorem run_alike {first second : Bytes} (h : SameTokens first second) :
    (session.run fuel clock first).1.Alike (session'.run fuel clock second).1 ∧
      (session.run fuel clock first).2.heap.renumber erased = (session'.run fuel clock second).2.heap.renumber erased := by
  by_cases hvalid : (analyze first).reports = []
  · obtain ⟨hevents, hresult, hnext⟩ := execute_alike hheap fuel clock h.statements
    rw [session.run_of_valid fuel clock hvalid, session'.run_of_valid fuel clock (h.valid_iff.mp hvalid)]
    refine ⟨.of_events ?_ hresult, hnext⟩
    rw [List.map_append, List.map_append, h.events, hevents]
  · rw [session.run_of_faults fuel clock hvalid, session'.run_of_faults fuel clock (mt h.valid_iff.mpr hvalid)]
    refine ⟨.of_events h.events ?_, hheap⟩
    exact congrArg Result.staticFaults h.reports_length

end

/-! ## Sessions -/

inductive Request.Alike : Request → Request → Prop
  | run {first second : Bytes} (fuel : Nat) (clock : Nat → Float) :
      SameTokens first second → Alike (.run fuel clock first) (.run fuel clock second)
  | tokens {first second : Bytes} : SameTokens first second → Alike (.tokens first) (.tokens second)
  | tree {first second : Bytes} : SameTokens first second → Alike (.tree first) (.tree second)
  | reset : Alike .reset .reset

/-- The same answer up to the lines: dumps of tokens agree from behind the line of each, and
trees agree altogether. -/
inductive Answer.Alike : Answer → Answer → Prop
  | ran {step step' : Step Unit} : step.Alike step' → Alike (.ran step) (.ran step')
  | tokens {step step' : Step (List Bytes)} :
      step.Alike step' → step.output.map afterLine = step'.output.map afterLine → Alike (.tokens step) (.tokens step')
  | tree {step step' : Step Bytes} : step.Alike step' → step.output = step'.output → Alike (.tree step) (.tree step')
  | reset : Alike .reset .reset

theorem Request.Alike.answer {session session' : Session} {request request' : Request} (h : request.Alike request')
    (hheap : session.heap.renumber erased = session'.heap.renumber erased) :
    (session.answer request).1.Alike (session'.answer request').1 ∧
      (session.answer request).2.heap.renumber erased = (session'.answer request').2.heap.renumber erased := by
  cases h with
  | run fuel clock h =>
    obtain ⟨hstep, hnext⟩ := run_alike hheap fuel clock h
    exact ⟨.ran hstep, hnext⟩
  | tokens h => exact ⟨.tokens h.tokens_alike h.dump, hheap⟩
  | tree h => exact ⟨.tree h.tree_alike h.tree_output, hheap⟩
  | reset => exact ⟨.reset, rfl⟩

/-- Requests with such texts have the same answers, one after the other. -/
theorem answers_alike {requests requests' : List Request} (h : List.Forall₂ Request.Alike requests requests')
    {session session' : Session} (hheap : session.heap.renumber erased = session'.heap.renumber erased) :
    List.Forall₂ Answer.Alike (session.answers requests) (session'.answers requests') := by
  induction h generalizing session session' with
  | nil => exact .nil
  | cons h _ ih =>
    obtain ⟨hanswer, hnext⟩ := h.answer hheap
    exact .cons hanswer (ih hnext)

/-- Texts of the same tokens have the same faults and the same tree; and sessions that differ
only in the layout of what they are given answer every request alike. -/
theorem layout_decides_nothing :
    (∀ first second, SameTokens first second →
      ((analyze first).reports = [] ↔ (analyze second).reports = []) ∧
      (analyze first).reports.map (fun r => (r.place, r.fault)) = (analyze second).reports.map (fun r => (r.place, r.fault)) ∧
      (Session.tree first).output = (Session.tree second).output) ∧
    ∀ (session : Session) (requests requests' : List Request), List.Forall₂ Request.Alike requests requests' →
      List.Forall₂ Answer.Alike (session.answers requests) (session.answers requests') := by
  refine ⟨fun first second h => ⟨h.valid_iff, ?_, h.tree_output⟩, fun session _ _ h => answers_alike h rfl⟩
  have hreports := h.tree_alike.reports
  rwa [show (Session.tree first).reports = _ from (analyze_events first).1,
    show (Session.tree second).reports = _ from (analyze_events second).1] at hreports

/-- A fault in a function from an earlier text, which is at another line there. -/
theorem layout_decides_nothing_across_runs :
    let declared := utf8 "fun f() \x7b return x; \x7d"
    let declared' := utf8 "fun f()\n\x7b // a comment\n  return x;\n\x7d"
    let called := utf8 "print 1; f();"
    let called' := utf8 "\n\nprint 1;\tf ();"
    SameTokens declared declared' ∧ SameTokens called called' ∧
      List.Forall₂ Answer.Alike
        (Session.fresh.answers [.run 9 (fun _ => 0) declared, .tree called, .run 9 (fun _ => 0) called])
        (Session.fresh.answers [.run 9 (fun _ => 0) declared', .tree called', .run 9 (fun _ => 0) called']) := by
  intro declared declared' called called'
  have hdeclared : SameTokens declared declared' := ⟨by decide +kernel, by decide +kernel, by decide +kernel⟩
  have hcalled : SameTokens called called' := ⟨by decide +kernel, by decide +kernel, by decide +kernel⟩
  refine ⟨hdeclared, hcalled, layout_decides_nothing.2 _ _ _ ?_⟩
  exact .cons (.run _ _ hdeclared) (.cons (.tree hcalled) (.cons (.run _ _ hcalled) .nil))

end Lox
