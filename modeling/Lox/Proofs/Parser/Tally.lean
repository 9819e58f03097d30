/-
  Lox.Proofs.Parser.Tally — the count of errors. It is raised where a report is made and nowhere
  else, and nothing is decided by it. Both are said at once (`Tallies`): a parser that starts from
  another count does the same, and ends as far from that count as it has made reports. A single
  step reports at most once, so this is seen step by step (`Steps.tallies`); for whole programs
  it says what `parse` counts (`parse_errors`).
-/

import Lox.Proofs.Parser.Parallel
import Lox.Proofs.Parser.Steps

namespace Lox

variable {α β : Type}

def ParserState.counting (s : ParserState) (errors : Nat) : ParserState := { s with errors }

@[simp] theorem ParserState.counting_counting (s : ParserState) (k l : Nat) :
    (s.counting k).counting l = s.counting l := rfl
@[simp] theorem ParserState.counting_errors (s : ParserState) : s.counting s.errors = s := rfl

def ParserOutcome.countedFrom (errors : Nat) : ParserOutcome α → ParserOutcome α
  | .read a s reports => .read a (s.counting (errors + reports.length)) reports
  | .rejected s earlier reason => .rejected (s.counting (errors + (earlier.length + 1))) earlier reason
  | .exhausted => .exhausted

theorem ParserOutcome.countedFrom_after (errors : Nat) (reports : List Report) (out : ParserOutcome α) :
    (out.after reports).countedFrom errors = (out.countedFrom (errors + reports.length)).after reports := by
  cases out with
  | read a s later => simp [after, countedFrom, Nat.add_assoc]
  | rejected s later reason => simp [after, countedFrom, Nat.add_assoc]
  | exhausted => rfl

namespace Parser

/-- From any count of errors the parser does the same, and counts its reports. -/
def Tallies (p : Parser α) : Prop := ∀ s errors, p (s.counting errors) = (p s).countedFrom errors

variable {p : Parser α} {g : α → Parser β}

theorem Tallies.of_silent (h : ∀ s, ∃ a s', p s = .read a s' [] ∧ ∀ errors, p (s.counting errors) = .read a (s'.counting errors) []) :
    Tallies p := by
  intro s errors
  obtain ⟨a, s', hp, hcounting⟩ := h s
  rw [hp, hcounting]
  rfl

theorem take?_tallies (select : Token → Option α) : Tallies (take? select) := by
  refine .of_silent fun s => ?_
  rcases hrest : s.rest with _ | ⟨t, rest⟩
  · exact ⟨none, s, by simp [take?, hrest], fun errors => by simp [take?, ParserState.counting, hrest]⟩
  · cases ht : select t with
    | none => exact ⟨none, s, by simp [take?, hrest, ht], fun errors => by simp [take?, ParserState.counting, hrest, ht]⟩
    | some a =>
      exact ⟨some a, { s with rest }, by simp [take?, hrest, ht],
        fun errors => by simp [take?, ParserState.counting, hrest, ht]⟩

/-- What follows matters only where the first part can come to. -/
theorem tallies_bind (hp : Tallies p) (hg : ∀ s a s' reports, p s = .read a s' reports → Tallies (g a)) :
    Tallies (p >>= g) := by
  intro s errors
  rw [bind_run, bind_run, hp]
  rcases hrun : p s with ⟨a, s', reports⟩ | ⟨s', earlier, reason⟩ | _
  · have hlater := hg s a s' reports hrun s' (errors + reports.length)
    exact (congrArg (ParserOutcome.after reports) hlater).trans (ParserOutcome.countedFrom_after errors reports _).symm
  · rfl
  · rfl

theorem bracketed_tallies (enter leave : Context → Context) (hp : Tallies p) : Tallies (bracketed enter leave p) := by
  intro s errors
  have hinside := hp { s with context := enter s.context } errors
  unfold bracketed
  rw [show p { s.counting errors with context := enter (s.counting errors).context } = _ from hinside]
  cases p { s with context := enter s.context } <;> rfl

theorem recovering_tallies {p : Parser Stmt} (hp : Tallies p) : Tallies (recovering p) := by
  intro s errors
  unfold recovering
  rw [hp]
  cases p s with
  | read st s' reports => rfl
  | rejected s' earlier reason => simp [ParserOutcome.countedFrom, ParserState.counting]
  | exhausted => rfl

/-- Every step counts what it reports. -/
theorem Steps.tallies {p : Parser α} (d : Steps p) : Tallies p := by
  induction d with
  | pure a => exact .of_silent fun s => ⟨a, s, rfl, fun _ => rfl⟩
  | bind _ _ ihp ihg => exact tallies_bind ihp fun _ a _ _ _ => ihg a
  | ite c _ _ ihp ihq =>
    split
    · exact ihp
    · exact ihq
  | exhausted => exact fun _ _ => rfl
  | context => exact .of_silent fun s => ⟨_, s, rfl, fun _ => rfl⟩
  | atEnd => exact .of_silent fun s => ⟨_, s, rfl, fun _ => rfl⟩
  | check kind => exact .of_silent fun s => ⟨_, s, rfl, fun _ => rfl⟩
  | atBodyEnd => exact .of_silent fun s => ⟨_, s, rfl, fun _ => rfl⟩
  | take? select => exact take?_tallies select
  | @branch _ _ select g _ _ ihsome ihnone =>
    refine tallies_bind (take?_tallies select) fun s a s' reports hrun => ?_
    cases a with
    | none => exact ihnone
    | some a =>
      -- Only what the selection makes of a token gets here.
      unfold Parser.take? at hrun
      split at hrun
      · cases hrun
      · split at hrun
        · cases hrun
          exact ihsome _ _ ‹_›
        · cases hrun
  | reportAt t fault => exact fun _ _ => rfl
  | reportHere fault => exact fun _ _ => rfl
  | reject fault => exact fun _ _ => rfl
  | bracketed enter leave _ ih => exact bracketed_tallies enter leave ih
  | recovering _ ih => exact recovering_tallies ih

end Parser

/-- However many errors have been counted before, the parser adds one for each report and does
nothing else with the count. -/
theorem parse_errors (tokens : List Token) (endLine errors : Nat) :
    parse tokens endLine errors =
      { parse tokens endLine with errors := errors + (parse tokens endLine).reports.length } := by
  have hprogram := (Parser.Steps.program (Parser.Steps.inner (tokens.length + 1)) (tokens.length + 1)).tallies
  have hrun := hprogram { rest := tokens, endLine } errors
  simp only [ParserState.counting] at hrun
  unfold parse
  dsimp only
  rw [hrun]
  cases Parser.program (Parser.inner (tokens.length + 1)) (tokens.length + 1) { rest := tokens, endLine } with
  | read statements s reports => rfl
  | rejected s earlier reason => simp [ParserOutcome.countedFrom, ParserState.counting]
  | exhausted => rfl

theorem errors_parse (tokens : List Token) (endLine : Nat) :
    (parse tokens endLine).errors = (parse tokens endLine).reports.length :=
  (congrArg Parsed.errors (parse_errors tokens endLine 0)).trans (Nat.zero_add _)

end Lox
