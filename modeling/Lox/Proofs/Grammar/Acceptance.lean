/-
  Lox.Proofs.Grammar.Acceptance — the parser accepts exactly the valid programs of the
  grammar, and keeps the tree in which each `else` belongs to the nearest `if`.
-/

import Lox.Proofs.Grammar.Completeness
import Lox.Proofs.Grammar.Nearest
import Lox.Proofs.Grammar.Soundness
import Lox.Proofs.Parser.Context
import Lox.Proofs.Session.Run

namespace Lox

open Grammar Lox.Parser

variable {tokens : List Token} {endLine : Nat} {program : List Stmt}

/-- A program is parsed into the tree of its derivation, and reported if it is not valid. -/
theorem parse_program (h : Program true tokens program) :
    (parse tokens endLine).statements = program ∧ ((parse tokens endLine).reports = [] ↔ ValidProgram program) := by
  have hyields := h.yields_program tokens.length (tokens.length + 1) { rest := tokens, endLine } (Nat.le_refl _)
    (Nat.lt_succ_self _) rfl
  obtain ⟨reports, hrun, hreports⟩ := hyields 0
  rw [show parse tokens endLine = _ from parse_of_run hrun]
  exact ⟨rfl, hreports⟩

/-- What is parsed without a report is a program. -/
theorem program_of_parse (nearest : Bool) (h : (parse tokens endLine).reports = []) :
    Program nearest tokens (parse tokens endLine).statements := by
  obtain ⟨s', hrun⟩ := parse_run tokens endLine
  rw [h] at hrun
  exact program_derives _ _ hrun

/-- A text without static faults derives its statements, and they are valid. -/
theorem analyze_program {source : Bytes} (h : (analyze source).reports = []) :
    Program true (scan source).tokens (analyze source).statements ∧ ValidProgram (analyze source).statements := by
  obtain ⟨-, hparse⟩ := analyze_clean h
  have hprogram := program_of_parse true hparse
  rw [analyze_statements]
  exact ⟨hprogram, (parse_program hprogram).2.mp hparse⟩

/-- Exactly the valid programs of the grammar are parsed without a report, whichever `if`
each `else` is given to. A program with each `else` at the nearest `if` has one tree, and
that tree is kept; it is reported exactly if it is not valid. -/
theorem parse_accepts_grammar (tokens : List Token) (endLine : Nat) :
    ((parse tokens endLine).reports = [] ↔ ∃ program, Program false tokens program ∧ ValidProgram program) ∧
    ((parse tokens endLine).reports = [] → Program true tokens (parse tokens endLine).statements) ∧
    ∀ program, Program true tokens program →
      (parse tokens endLine).statements = program ∧ ((parse tokens endLine).reports = [] ↔ ValidProgram program) := by
  refine ⟨⟨fun h => ?_, fun ⟨program, hp, hv⟩ => ?_⟩, program_of_parse true, fun program => parse_program⟩
  · exact ⟨_, program_of_parse false h, (parse_program (program_of_parse true h)).2.mp h⟩
  · obtain ⟨program', hp', hv'⟩ := hp.toNearest
    exact (parse_program hp').2.mpr ((hv' _ _).mpr hv)

/-- `if (a) if (b) print nil; else print true;` -/
def danglingElse : List Token := [
  ⟨.if_, utf8 "if", 1⟩, ⟨.leftParen, utf8 "(", 1⟩, ⟨.identifier, utf8 "a", 1⟩, ⟨.rightParen, utf8 ")", 1⟩,
  ⟨.if_, utf8 "if", 1⟩, ⟨.leftParen, utf8 "(", 1⟩, ⟨.identifier, utf8 "b", 1⟩, ⟨.rightParen, utf8 ")", 1⟩,
  ⟨.print_, utf8 "print", 1⟩, ⟨.nil_, utf8 "nil", 1⟩, ⟨.semicolon, utf8 ";", 1⟩,
  ⟨.else_, utf8 "else", 1⟩, ⟨.print_, utf8 "print", 1⟩, ⟨.true_, utf8 "true", 1⟩, ⟨.semicolon, utf8 ";", 1⟩]

/-- The inner `if` has the `else`. -/
theorem parse_accepts_grammar_danglingElse :
    Program true danglingElse [.ifElse (.var ⟨utf8 "a", 1⟩)
      (.ifElse (.var ⟨utf8 "b", 1⟩) (.print (.literal .nil)) (some (.print (.literal (.bool true))))) none] ∧
    ∀ program, Program true danglingElse program → (parse danglingElse 1).statements = program ∧ ValidProgram program := by
  obtain ⟨-, -, hunique⟩ := parse_accepts_grammar danglingElse 1
  have hreports : (parse danglingElse 1).reports = [] := by decide +kernel
  have hderives : Program true danglingElse _ := .cons (.statement (.ifOnly rfl rfl (Primary.expression (.var rfl)) rfl
    (.ifElse rfl rfl (Primary.expression (.var rfl)) rfl (.print rfl (Primary.expression (.nil rfl)) rfl) (fun _ => rfl) rfl
      (.print rfl (Primary.expression (.true rfl)) rfl)))) .nil
  exact ⟨hderives, fun program h => ⟨(hunique program h).1, (hunique program h).2.mp hreports⟩⟩

end Lox
