/-
  Lox.Proofs.Pieces — a program in one piece or in two. Two texts without static faults,
  joined by a newline, have none either; their statements are those of the first and, with
  lines moved on, those of the second (`analyze_joined`). Between statements at the top level
  a machine is as good as new but for its heap, so the second half of the run prints what a
  run of its own prints (`execProgram_rest`). Together: `run_joined`.
-/

import Lox.Proofs.Eval.Parallel
import Lox.Proofs.Grammar.Append
import Lox.Proofs.Session.Run
import Lox.Proofs.Token.Append

namespace Lox

open Eval

def joined (first second : Bytes) : Bytes := first ++ Text.newline :: second

/-! ## Statements -/

theorem analyze_joined {first second : Bytes} (hfirst : (analyze first).reports = [])
    (hsecond : (analyze second).reports = []) :
    (analyze (joined first second)).reports = [] ∧
      (analyze (joined first second)).statements =
        (analyze first).statements ++ (analyze second).statements.map (Stmt.renumber (· + linesBefore first)) := by
  obtain ⟨hscan₁, hparse₁⟩ := analyze_clean hfirst
  obtain ⟨hscan₂, hparse₂⟩ := analyze_clean hsecond
  have hmoved := parse_renumber (· + linesBefore first) (scan second).tokens (scan second).endLine
  have hreports : (parse ((scan second).tokens.map (Token.renumber (· + linesBefore first)))
      ((scan second).endLine + linesBefore first)).reports = [] := by
    rw [hmoved]
    simp only [Parsed.renumber, hparse₂, List.map_nil]
  obtain ⟨hjoined, hstatements⟩ := parse_append hparse₁ hreports ((scan second).endLine + linesBefore first)
  rw [analyze_reports, analyze_statements, analyze_statements, analyze_statements, joined, scan_append hscan₁]
  refine ⟨?_, ?_⟩
  · simp only [Scan.renumber, hscan₂, List.map_nil, List.nil_append, hjoined]
  · simp only [Scan.renumber, hstatements, hmoved, Parsed.renumber]

/-! ## Evaluation -/

theorem execProgram_append (fuel : Nat) (first second : List Stmt) (m : Machine) :
    execProgram fuel (first ++ second) m = (execProgram fuel first >>= fun _ => execProgram fuel second) m := by
  induction first generalizing m with
  | nil => rfl
  | cons s rest ih =>
    show (execStmt fuel s >>= fun _ => execProgram fuel (rest ++ second)) m =
      ((execStmt fuel s >>= fun _ => execProgram fuel rest) >>= fun _ => execProgram fuel second) m
    rw [bind_assoc, bind_run, bind_run]
    rcases execStmt fuel s m with ⟨_ | _, m'⟩
    · rfl
    · exact ih m'

/-- A result without the line of an error. -/
def Result.unplaced : Result → Result
  | .failed e => .failed (e.renumber fun _ => 0)
  | r => r

theorem Result.unplaced_ofOutcome (outcome : Except Halt Unit) :
    (Result.ofOutcome outcome).unplaced = .ofOutcome (outcome.mapError (Halt.renumber fun _ => 0)) := by
  match outcome with
  | .ok () => rfl
  | .error (.fault e) => rfl
  | .error .exhausted => rfl

/-- From a machine at the top level, statements do what they do from a new machine with the
same heap, up to line numbers. -/
theorem execProgram_rest {m : Machine} (hscope : m.scope = Heap.globals) (hdepth : m.depth = 0) (fuel : Nat)
    (program : List Stmt) (f : Nat → Nat) :
    let rest := execProgram fuel (program.map (Stmt.renumber f)) m
    let alone := execProgram fuel program { heap := m.heap, clock := fun i => m.clock (m.readings + i) }
    (Result.ofOutcome rest.1).unplaced = (Result.ofOutcome alone.1).unplaced ∧
      rest.2.printed = m.printed ++ alone.2.printed ∧
      rest.2.heap.renumber (fun _ => 0) = alone.2.heap.renumber (fun _ => 0) := by
  intro rest alone
  -- Both are compared with the run of the program whose lines are all zero.
  let l : Lead := ⟨fun _ => 0, #[], 0, m.clock⟩
  let l' : Lead := ⟨fun _ => 0, m.printed, m.readings, m.clock⟩
  have hrest := (execProgram_parallel l fuel (program.map (Stmt.renumber f)) m
    fun i => congrArg m.clock (Nat.zero_add i)).eq.2
  have halone := (execProgram_parallel l' fuel program { heap := m.heap, clock := fun i => m.clock (m.readings + i) }
    fun _ => rfl).eq.2
  have hmachine : m.ahead l = Machine.ahead { heap := m.heap, clock := fun i => m.clock (m.readings + i) } l' := by
    simp [Machine.ahead, l, l', hscope, hdepth]
  have hprogram : (program.map (Stmt.renumber f)).map (Stmt.renumber l.line) = program.map (Stmt.renumber l'.line) := by
    simp [Stmt.renumber_renumber, Function.comp_def, l, l']
  rw [hmachine, hprogram, halone] at hrest
  obtain ⟨houtcome, hahead⟩ := Prod.mk.inj hrest
  refine ⟨?_, ?_, ?_⟩
  · rw [Result.unplaced_ofOutcome, Result.unplaced_ofOutcome]
    exact congrArg Result.ofOutcome houtcome.symm
  · have hprinted := congrArg Machine.printed hahead
    simpa [Machine.ahead, l, l'] using hprinted.symm
  · exact (congrArg Machine.heap hahead).symm

/-! ## Globals -/

/-- The names of the outermost declarations, each with what is printed for it. -/
def Session.globals (session : Session) : Option (Table Bytes) :=
  session.heap.scopes.all[Heap.globals]?.map fun scope => scope.bindings.map session.heap.render

theorem Session.globals_of_heap {session session' : Session} {f : Nat → Nat}
    (h : session.heap.renumber f = session'.heap.renumber f) : session.globals = session'.globals := by
  have hscopes : (session.heap.renumber f).scopes = (session'.heap.renumber f).scopes := congrArg Heap.scopes h
  have hrender : session.heap.render = session'.heap.render := by
    funext v
    rw [← Heap.render_renumber f, h, Heap.render_renumber]
  rw [Heap.renumber_scopes, Heap.renumber_scopes] at hscopes
  unfold Session.globals
  rw [hscopes, hrender]

/-! ## Runs -/

section

variable (session : Session) (fuel : Nat) (clock : Nat → Float) {first second : Bytes}

theorem Session.outcome_joined_ok (hfirst : (analyze first).reports = []) (hsecond : (analyze second).reports = [])
    {m : Machine} (h : session.outcome fuel clock first = (.ok (), m)) :
    session.outcome fuel clock (joined first second) =
      execProgram fuel ((analyze second).statements.map (Stmt.renumber (· + linesBefore first))) m := by
  unfold Session.outcome
  rw [(analyze_joined hfirst hsecond).2, execProgram_append]
  exact bind_ok h

theorem Session.outcome_joined_error (hfirst : (analyze first).reports = []) (hsecond : (analyze second).reports = [])
    {halt : Halt} {m : Machine} (h : session.outcome fuel clock first = (.error halt, m)) :
    session.outcome fuel clock (joined first second) = (.error halt, m) := by
  unfold Session.outcome
  rw [(analyze_joined hfirst hsecond).2, execProgram_append]
  exact bind_error h

theorem Session.run_joined_done (hfirst : (analyze first).reports = []) (hsecond : (analyze second).reports = [])
    (hdone : (session.run fuel clock first).1.result = .done) :
    let next := (session.run fuel clock first).2.run fuel (fun i => clock (session.readings fuel clock first + i)) second
    let whole := session.run fuel clock (joined first second)
    whole.1.printed = (session.run fuel clock first).1.printed ++ next.1.printed ∧
      whole.1.result.unplaced = next.1.result.unplaced ∧ whole.2.globals = next.2.globals := by
  intro next whole
  obtain ⟨hprinted₁, -, hresult₁, hnext₁⟩ := session.run_shows fuel clock hfirst
  obtain ⟨hprinted, -, hresult, hnext⟩ := session.run_shows fuel clock (analyze_joined hfirst hsecond).1
  obtain ⟨hprinted₂, -, hresult₂, hnext₂⟩ := (session.run fuel clock first).2.run_shows fuel
    (fun i => clock (session.readings fuel clock first + i)) hsecond
  have hsteady := execProgram_steady fuel (analyze first).statements { heap := session.heap, clock }
  rw [hdone] at hresult₁
  cases hout : session.outcome fuel clock first with
  | mk outcome m =>
    have hm : (execProgram fuel (analyze first).statements { heap := session.heap, clock }).2 = m :=
      congrArg Prod.snd hout
    have hreadings : session.readings fuel clock first = m.readings := congrArg Machine.readings hm
    rw [hm] at hsteady
    rw [hout] at hprinted₁ hresult₁ hnext₁
    match outcome with
    | .error (.fault _) | .error .exhausted => cases hresult₁
    | .ok () =>
      have hrest := execProgram_rest hsteady.scope hsteady.depth fuel (analyze second).statements (· + linesBefore first)
      have hsecond_outcome : (session.run fuel clock first).2.outcome fuel
          (fun i => clock (session.readings fuel clock first + i)) second =
          execProgram fuel (analyze second).statements
            { heap := m.heap, clock := fun i => m.clock (m.readings + i) } := by
        rw [hnext₁, hreadings, hsteady.clock]
        rfl
      rw [← hsecond_outcome, ← session.outcome_joined_ok fuel clock hfirst hsecond hout] at hrest
      obtain ⟨hunplaced, htexts, hheap⟩ := hrest
      refine ⟨?_, ?_, ?_⟩
      · rw [hprinted, hprinted₁, hprinted₂, htexts, Array.toList_append]
      · rw [hresult, hresult₂, hunplaced]
      · rw [hnext, hnext₂]
        exact Session.globals_of_heap hheap

theorem Session.run_joined_failed (hfirst : (analyze first).reports = []) (hsecond : (analyze second).reports = [])
    (hfailed : (session.run fuel clock first).1.result ≠ .done) :
    let whole := session.run fuel clock (joined first second)
    whole.1.printed = (session.run fuel clock first).1.printed ∧
      whole.1.result = (session.run fuel clock first).1.result ∧
      whole.1.reports = (session.run fuel clock first).1.reports ∧ whole.2 = (session.run fuel clock first).2 := by
  intro whole
  obtain ⟨hprinted₁, hreports₁, hresult₁, hnext₁⟩ := session.run_shows fuel clock hfirst
  obtain ⟨hprinted, hreports, hresult, hnext⟩ := session.run_shows fuel clock (analyze_joined hfirst hsecond).1
  have hwhole : session.outcome fuel clock (joined first second) = session.outcome fuel clock first := by
    rw [hresult₁] at hfailed
    rcases hout : session.outcome fuel clock first with ⟨halt | _, m⟩
    · exact session.outcome_joined_error fuel clock hfirst hsecond hout
    · rw [hout] at hfailed
      exact absurd rfl hfailed
  rw [hprinted₁, hreports₁, hresult₁, hnext₁, ← hwhole]
  exact ⟨hprinted, hresult, hreports, hnext⟩

end

/-- Running two texts in one piece or in two agrees, whatever the session was before. Joined
by a newline they have no static fault if neither has one, and the lines of the second move
on by one and by the newlines of the first. If the run of the first ends well, the whole
prints what the two print one after the other, ends as the second does but for the line of
an error, and leaves the same globals with the same printed values; the clock goes on for
the second where the first left it. Otherwise the whole does what the first does. -/
theorem run_joined (session : Session) (fuel : Nat) (clock : Nat → Float) (first second : Bytes)
    (hfirst : (analyze first).reports = []) (hsecond : (analyze second).reports = []) :
    let alone := session.run fuel clock first
    let next := alone.2.run fuel (fun i => clock (session.readings fuel clock first + i)) second
    let whole := session.run fuel clock (joined first second)
    (analyze (joined first second)).reports = [] ∧
    (scan (joined first second)).tokens =
      (scan first).tokens ++ (scan second).tokens.map (Token.renumber (· + (1 + first.count Text.newline))) ∧
    (alone.1.result = .done →
      whole.1.printed = alone.1.printed ++ next.1.printed ∧ whole.1.result.unplaced = next.1.result.unplaced ∧
      whole.2.globals = next.2.globals) ∧
    (alone.1.result ≠ .done →
      whole.1.printed = alone.1.printed ∧ whole.1.result = alone.1.result ∧ whole.1.reports = alone.1.reports ∧
      whole.2 = alone.2) := by
  intro alone next whole
  obtain ⟨hscan, -⟩ := analyze_clean hfirst
  have htokens := congrArg Scan.tokens (scan_append hscan second)
  exact ⟨(analyze_joined hfirst hsecond).1, htokens, session.run_joined_done fuel clock hfirst hsecond,
    session.run_joined_failed fuel clock hfirst hsecond⟩

/-- Two lines that end in an `if` without `else`. -/
def openIfText : Bytes := utf8 "var a = \"x\";\nif (true) print a;"

def laterText : Bytes := utf8 "print a; b;"

/-- The error of the second text is on its first line, and on the third of the whole. -/
theorem run_joined_openIf :
    let alone := Session.fresh.run 40 (fun _ => 0) openIfText
    let next := alone.2.run 40 (fun _ => 0) laterText
    let whole := Session.fresh.run 40 (fun _ => 0) (joined openIfText laterText)
    (analyze openIfText).reports = [] ∧ (analyze laterText).reports = [] ∧ alone.1.result = .done ∧
    next.1.result = .failed ⟨1, .undefinedVariable (utf8 "b")⟩ ∧
    whole.1.result = .failed ⟨3, .undefinedVariable (utf8 "b")⟩ ∧
    whole.1.printed = alone.1.printed ++ next.1.printed ∧ whole.2.globals = next.2.globals := by
  intro alone next whole
  have hfirst : (analyze openIfText).reports = [] := by decide +kernel
  have hsecond : (analyze laterText).reports = [] := by decide +kernel
  have hdone : alone.1.result = .done := by decide +kernel
  obtain ⟨-, -, hjoined, -⟩ := run_joined Session.fresh 40 (fun _ => 0) openIfText laterText hfirst hsecond
  obtain ⟨hprinted, -, hglobals⟩ := hjoined hdone
  exact ⟨hfirst, hsecond, hdone, by decide +kernel, by decide +kernel, hprinted, hglobals⟩

end Lox
