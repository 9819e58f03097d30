/-
  Lox.Proofs.Parser.Context — what a declaration leaves behind. A rejection may unwind from
  any depth of half-read functions and classes; every declaration still comes back to the
  context it was started in (`declaration_returns`). At the top level this makes parsing
  restartable: what follows a declaration is read as if it stood alone (`parse_step`), from
  any point that a parse comes by (`no_context_leaks`).
-/

import Lox.Proofs.Parser.Phrases
import Lox.Proofs.Parser.Tally

namespace Lox

def Parsed.renumber (f : Nat → Nat) (p : Parsed) : Parsed :=
  { p with statements := p.statements.map (Stmt.renumber f), reports := p.reports.map (Report.renumber f) }

@[simp] theorem Parsed.renumber_id (p : Parsed) : p.renumber id = p := by
  have hs : Stmt.renumber id = id := funext Stmt.renumber_id
  have hr : Report.renumber id = id := rfl
  simp [Parsed.renumber, hs, hr]

namespace Parser

@[simp] theorem renumber_id_state (s : ParserState) : s.renumber id = s := by
  have h : Token.renumber id = id := rfl
  simp [ParserState.renumber, h]

/-! ## Declarations -/

/-- A declaration with a bound above the number of tokens left always comes back, in the
context it was started in and with fewer tokens left, if there were any. -/
theorem declaration_returns {b : Nat} {s : ParserState} (hb : s.rest.length < b) :
    ∃ first s' reports, declaration (inner b) s = .read first s' reports ∧ s'.Follows s ∧
      (s.rest ≠ [] → s'.rest.length < s.rest.length) := by
  have hpar := declaration_parallel (inner_parallel id s.rest.length b b hb hb) s (Nat.le_refl _)
  obtain ⟨first, _, s', reports, hrun, -, hf, hlt, -⟩ | ⟨s', earlier, reason, hrun, -, -⟩ := hpar.cases
  · exact ⟨first, s', reports, hrun, hf, fun hne => hlt (List.length_pos_iff.mpr hne)⟩
  · simp only [declaration, recovering] at hrun
    split at hrun <;> cases hrun

theorem declaration_follows {b : Nat} {s s' : ParserState} {first : Option Stmt} {reports : List Report}
    (hb : s.rest.length < b) (h : declaration (inner b) s = .read first s' reports) :
    s'.Follows s ∧ (s.rest ≠ [] → s'.rest.length < s.rest.length) := by
  obtain ⟨_, _, _, hrun, hf, hlt⟩ := declaration_returns hb
  rw [h] at hrun
  cases hrun
  exact ⟨hf, hlt⟩

/-! ## Whole programs -/

/-- A declaration recovers from its own faults; it is never rejected. -/
theorem declaration_ne_rejected (i : Inner) (s s' : ParserState) (earlier : List Report) (reason : Report) :
    declaration i s ≠ .rejected s' earlier reason := by
  intro h
  simp only [declaration, recovering] at h
  split at h <;> cases h

theorem program_end {i : Inner} {c : Nat} {s : ParserState} (h : s.rest = []) :
    program i (c + 1) s = .read [] s [] := by
  have he : atEnd s = .read true s [] := by simp [atEnd, h]
  rw [program, bind_read he, ParserOutcome.after_nil]
  rfl

theorem program_cons {i : Inner} {c : Nat} {s : ParserState} (h : s.rest ≠ []) :
    program i (c + 1) s = (declaration i >>= fun first => (first.toList ++ ·) <$> program i c) s := by
  have he : atEnd s = .read false s [] := by simp [atEnd, h]
  rw [program, bind_read he, ParserOutcome.after_nil]
  rfl

/-- So is no program. -/
theorem program_ne_rejected (i : Inner) (c : Nat) : ∀ (s s' : ParserState) (earlier : List Report) (reason : Report),
    program i c s ≠ .rejected s' earlier reason := by
  induction c with
  | zero => intro s s' earlier reason h; cases h
  | succ c ih =>
    intro s s' earlier reason h
    by_cases he : s.rest = []
    · rw [program_end he] at h; cases h
    rw [program_cons he] at h
    rcases hd : declaration i s with ⟨first, s₁, reports⟩ | ⟨s₁, _, _⟩ | _
    · rw [bind_read hd, map_run] at h
      rcases hr : program i c s₁ with ⟨rest, s₂, later⟩ | ⟨s₂, later, why⟩ | _
      · simp [hr, ParserOutcome.after] at h
      · exact ih s₁ s₂ later why hr
      · simp [hr, ParserOutcome.after] at h
    · exact declaration_ne_rejected i s _ _ _ hd
    · rw [bind_exhausted hd] at h; cases h

theorem parse_of_run {tokens : List Token} {endLine : Nat} {kept : List Stmt} {s : ParserState} {reports : List Report}
    (h : program (inner (tokens.length + 1)) (tokens.length + 1) { rest := tokens, endLine } = .read kept s reports) :
    parse tokens endLine = ⟨kept, reports, reports.length⟩ := by
  have hparse : parse tokens endLine = ⟨kept, reports, s.errors⟩ := by simp only [parse, h]
  have herrors := errors_parse tokens endLine
  rw [hparse] at herrors ⊢
  rw [show s.errors = reports.length from herrors]

/-- Whatever the bounds and the numbers of the lines, a program is read as `parse` reads it. -/
theorem program_run (f : Nat → Nat) {s : ParserState} {b c : Nat} (hb : s.rest.length < b) (hc : s.rest.length < c)
    (hs : s.context = {}) :
    ∃ s', program (inner b) c (s.renumber f) =
      .read ((parse s.rest s.endLine).renumber f).statements s' ((parse s.rest s.endLine).renumber f).reports := by
  have hstart : s.counting 0 = { rest := s.rest, endLine := s.endLine } := by rw [← hs]; rfl
  have hpar := program_parallel (f := f) s.rest.length (Nat.lt_succ_self _) hb (s.rest.length + 1) c
    (Nat.lt_succ_self _) hc s (Nat.le_refl _)
  obtain ⟨kept, _, s', reports, hrun, hrun', -, -, rfl⟩ | ⟨s', earlier, reason, hrun, -, -⟩ := hpar.cases
  · -- The count in `s` is any number, but that makes no difference to what is read.
    have hcounted := (Steps.program (Steps.inner (s.rest.length + 1)) (s.rest.length + 1)).tallies s 0
    rw [hstart, hrun] at hcounted
    rw [hrun', parse_of_run hcounted]
    exact ⟨_, rfl⟩
  · exact absurd hrun (program_ne_rejected _ _ _ _ _ _)

end Parser

open Lox.Parser

/-- Lines are passed on to trees and reports, and decide nothing. -/
theorem parse_renumber (f : Nat → Nat) (tokens : List Token) (endLine : Nat) :
    parse (tokens.map (Token.renumber f)) (f endLine) = (parse tokens endLine).renumber f := by
  obtain ⟨s', hrun⟩ := program_run f (s := { rest := tokens, endLine }) (Nat.lt_succ_self _) (Nat.lt_succ_self _) rfl
  rw [parse_of_run (by rw [List.length_map]; exact hrun)]
  simp only [Parsed.renumber, errors_parse, List.length_map]

/-- Reading a program never stops short of its end. -/
theorem parse_run (tokens : List Token) (endLine : Nat) :
    ∃ s', program (inner (tokens.length + 1)) (tokens.length + 1) { rest := tokens, endLine } =
      .read (parse tokens endLine).statements s' (parse tokens endLine).reports := by
  obtain ⟨s', hrun⟩ := program_run id (s := { rest := tokens, endLine }) (Nat.lt_succ_self _) (Nat.lt_succ_self _) rfl
  rw [renumber_id_state, Parsed.renumber_id] at hrun
  exact ⟨s', hrun⟩

/-- A declaration at the top level, and then the rest as if it stood alone. -/
theorem parse_step {s s' : ParserState} {b : Nat} {first : Option Stmt} {reports : List Report}
    (hb : s.rest.length < b) (hs : s.context = {}) (hne : s.rest ≠ [])
    (h : declaration (inner b) s = .read first s' reports) :
    (parse s.rest s.endLine).statements = first.toList ++ (parse s'.rest s'.endLine).statements ∧
      (parse s.rest s.endLine).reports = reports ++ (parse s'.rest s'.endLine).reports := by
  obtain ⟨hf, hlt⟩ := declaration_follows hb h
  have hlt := hlt hne
  obtain ⟨_, hrun⟩ := program_run id hb (Nat.lt_succ_self _) hs
  obtain ⟨_, hrun'⟩ := program_run id (Nat.lt_trans hlt hb) hlt (hf.context.trans hs)
  rw [renumber_id_state, program_cons hne, bind_read h, map_run] at hrun
  rw [renumber_id_state] at hrun'
  rw [hrun'] at hrun
  simp only [ParserOutcome.after, ParserOutcome.read.injEq, Parsed.renumber_id] at hrun
  exact ⟨hrun.1.symm, hrun.2.2.symm⟩

/-! ## Restarting -/

/-- The states between the declarations of a whole program, with the declarations kept and
the reports made up to there. -/
inductive Between (tokens : List Token) (endLine : Nat) : List Stmt → List Report → ParserState → Prop
  | start : Between tokens endLine [] [] { rest := tokens, endLine }
  | step {kept : List Stmt} {reports new : List Report} {s s' : ParserState} {first : Option Stmt} :
      Between tokens endLine kept reports s → s.rest ≠ [] →
      declaration (inner (tokens.length + 1)) s = .read first s' new →
      Between tokens endLine (kept ++ first.toList) (reports ++ new) s'

theorem Between.follows {tokens : List Token} {endLine : Nat} {kept : List Stmt} {reports : List Report}
    {s : ParserState} (h : Between tokens endLine kept reports s) :
    s.Follows { rest := tokens, endLine } := by
  induction h with
  | start => exact .refl _
  | step _ _ hrun ih => exact (declaration_follows (Nat.lt_succ_of_le ih.length_le) hrun).1.trans ih

/-- Between two declarations the parser goes on as it would on the tokens that are left alone. -/
theorem Between.resumes {tokens : List Token} {endLine : Nat} {kept : List Stmt} {reports : List Report}
    {s : ParserState} (h : Between tokens endLine kept reports s) :
    (parse tokens endLine).statements = kept ++ (parse s.rest endLine).statements ∧
      (parse tokens endLine).reports = reports ++ (parse s.rest endLine).reports := by
  induction h with
  | start => exact ⟨rfl, rfl⟩
  | step hbetween hne hrun ih =>
    have hf := hbetween.follows
    obtain ⟨hs, hr⟩ := parse_step (Nat.lt_succ_of_le hf.length_le) hf.context hne hrun
    have hf' := (hbetween.step hne hrun).follows
    rw [hf.endLine, hf'.endLine] at hs hr
    rw [ih.1, ih.2, hs, hr, List.append_assoc, List.append_assoc]
    exact ⟨rfl, rfl⟩

/-- Between any two declarations of a program, kept or skipped, no function and no class is
open, and what is still to come is read as if it stood alone. Inside of blocks, at whatever
depth and in whatever context, a declaration too comes back to where it was started. -/
theorem no_context_leaks (tokens : List Token) (endLine : Nat) :
    (∀ kept reports s, Between tokens endLine kept reports s →
      s.context = {} ∧ s.rest <:+ tokens ∧
      (parse tokens endLine).statements = kept ++ (parse s.rest endLine).statements ∧
      (parse tokens endLine).reports = reports ++ (parse s.rest endLine).reports) ∧
    ∀ (b : Nat) (s : ParserState), s.rest.length < b →
      ∃ first s' reports, declaration (inner b) s = .read first s' reports ∧ s'.context = s.context := by
  constructor
  · intro kept reports s h
    exact ⟨h.follows.context, h.follows.suffix, h.resumes⟩
  · intro b s hb
    obtain ⟨first, s', reports, hrun, hf, -⟩ := declaration_returns hb
    exact ⟨first, s', reports, hrun, hf.context⟩

/-- A method without an end, a class without an end, and then a correct statement, save for
its use of the receiver. -/
def unclosedMethod : List Token := [
  ⟨.class_, utf8 "class", 1⟩, ⟨.identifier, utf8 "A", 1⟩, ⟨.leftBrace, utf8 "\x7b", 1⟩, ⟨.identifier, utf8 "m", 1⟩,
  ⟨.leftParen, utf8 "(", 1⟩, ⟨.rightBrace, utf8 "\x7d", 1⟩,
  ⟨.print_, utf8 "print", 2⟩, ⟨.this_, utf8 "this", 2⟩, ⟨.semicolon, utf8 ";", 2⟩]

/-- The fault lies inside a method of a class; the receiver after it is outside of both. -/
theorem no_context_leaks_unclosedMethod :
    Between unclosedMethod 2 [] [faultAt ⟨.rightBrace, utf8 "\x7d", 1⟩ .expectedParameterName]
      { rest := unclosedMethod.drop 6, endLine := 2, errors := 1 } ∧
    (parse unclosedMethod 2).reports =
      [faultAt ⟨.rightBrace, utf8 "\x7d", 1⟩ .expectedParameterName] ++ (parse (unclosedMethod.drop 6) 2).reports ∧
    (parse (unclosedMethod.drop 6) 2).reports = [faultAt ⟨.this_, utf8 "this", 2⟩ .thisOutsideClass] := by
  have hrun : declaration (inner (unclosedMethod.length + 1)) { rest := unclosedMethod, endLine := 2 } =
      .read none { rest := unclosedMethod.drop 6, endLine := 2, errors := 1 }
        [faultAt ⟨.rightBrace, utf8 "\x7d", 1⟩ .expectedParameterName] := rfl
  have h : Between unclosedMethod 2 [] _ _ := Between.start.step (List.cons_ne_nil _ _) hrun
  exact ⟨h, ((no_context_leaks unclosedMethod 2).1 _ _ _ h).2.2.2, by decide +kernel⟩

end Lox
