/-
  Lox.Proofs.Recovery — what becomes of correct declarations behind a text with faults. After
  a fault the parser skips to where a statement may start, and never past the end of a text
  that ends a statement. It may skip the brace that would have ended a block, though; then
  the block takes in all that follows, and is given up at the end of the text. Exactly then
  the text alone has a report at its end, so this report decides: without it every
  declaration of the sequel is kept, and with it they are lost (`sequel_kept_iff`).
-/

import Lox.Proofs.Grammar.Nesting
import Lox.Proofs.Parser.Sequel
import Lox.Proofs.Pieces

namespace Lox

open Lox.Parser (closesStatement startsStatement)

/-! ## Lines of tokens -/

theorem Scan.lines_ofSegments (line : Nat) (segments : List Segment) :
    ∀ t ∈ (ofSegments line segments).tokens, line ≤ t.line ∧ t.line ≤ (ofSegments line segments).endLine := by
  have hend : ∀ (line : Nat) (segments : List Segment), line ≤ (ofSegments line segments).endLine := by
    intro line segments
    rw [endLine_ofSegments]
    omega
  induction segments generalizing line with
  | nil => exact List.forall_mem_nil _
  | cons s rest ih =>
    intro t ht
    simp only [ofSegments_cons] at ht ⊢
    have hnext := hend (line + s.newlines) rest
    rcases List.mem_append.mp ht with ht | ht
    · unfold tokenAt at ht
      split at ht
      · obtain rfl := List.mem_singleton.mp ht
        exact ⟨Nat.le_add_right _ _, hnext⟩
      · cases ht
    · obtain ⟨hfrom, hto⟩ := ih (line + s.newlines) t ht
      exact ⟨by omega, hto⟩

theorem scan_lines {source : Bytes} {t : Token} (h : t ∈ (scan source).tokens) : 1 ≤ t.line ∧ t.line ≤ linesBefore source := by
  have hlines := Scan.lines_ofSegments 1 (Segment.split source) t h
  rwa [show (Scan.ofSegments 1 (Segment.split source)).endLine = _ from endLine_scan source] at hlines

/-! ## Sequels -/

def movedTokens (first second : Bytes) : List Token := (scan second).tokens.map (Token.renumber (· + linesBefore first))

/-- All declarations of `good` are kept when it follows `bad`, behind those of `bad`, and none of
its tokens is reported. -/
structure KeepsSequel (bad good : Bytes) : Prop where
  statements : (analyze (joined bad good)).statements =
    (analyze bad).statements ++ (analyze good).statements.map (Stmt.renumber (· + linesBefore bad))
  reports : ∀ r ∈ (analyze (joined bad good)).reports, ¬ r.Among (movedTokens bad good)

section

variable {bad good : Bytes}

/-- No token of the first text is on a line of the second. -/
theorem not_among_moved {r : Report} (h : r.Among (scan bad).tokens) : ¬ r.Among (movedTokens bad good) := by
  intro ⟨t', ht', hline', _⟩
  obtain ⟨t, ht, hline, -⟩ := h
  obtain ⟨u, hu, rfl⟩ := List.mem_map.mp ht'
  have hlines := scan_lines ht
  have hlines' := scan_lines hu
  rw [Token.renumber_line] at hline'
  omega

theorem analyze_joined_parse (hscan : (scan bad).reports = []) (hgood : (scan good).reports = []) :
    let parsed := parse ((scan bad).tokens ++ movedTokens bad good) ((scan good).endLine + linesBefore bad)
    (analyze (joined bad good)).statements = parsed.statements ∧ (analyze (joined bad good)).reports = parsed.reports := by
  rw [analyze_statements, analyze_reports, joined, scan_append hscan]
  simp only [Scan.renumber, hgood, List.map_nil, List.nil_append, movedTokens, and_self]

theorem parse_moved (bad : Bytes) {good : Bytes} (hgood : (analyze good).reports = []) :
    parse (movedTokens bad good) ((scan good).endLine + linesBefore bad) =
      ⟨(analyze good).statements.map (Stmt.renumber (· + linesBefore bad)), [], 0⟩ := by
  obtain ⟨-, hparse⟩ := analyze_clean hgood
  have hmoved := parse_renumber (· + linesBefore bad) (scan good).tokens (scan good).endLine
  have herrors := errors_parse (scan good).tokens (scan good).endLine
  rw [hparse, List.length_nil] at herrors
  rw [movedTokens, hmoved, analyze_statements]
  simp only [Parsed.renumber, hparse, herrors, List.map_nil]

/-- Of correct declarations behind a text that ends a statement, all are kept exactly if the
text, parsed alone, makes no report at its end. -/
theorem sequel_kept_iff (hscan : (scan bad).reports = [])
    (hlast : ∀ t, (scan bad).tokens.getLast? = some t → closesStatement t.kind = true)
    (hgood : (analyze good).reports = [])
    (hfirst : ∃ t rest, (scan good).tokens = t :: rest ∧ startsStatement t.kind = true) :
    KeepsSequel bad good ↔ ∀ r ∈ (analyze bad).reports, r.place ≠ .atEnd := by
  have hstarts : ∃ t rest, movedTokens bad good = t :: rest ∧ startsStatement t.kind = true := by
    obtain ⟨t, rest, htokens, ht⟩ := hfirst
    exact ⟨t.renumber _, rest.map (Token.renumber _), by rw [movedTokens, htokens]; rfl, ht⟩
  let j : Parser.Junction :=
    ⟨(scan bad).tokens, movedTokens bad good, (scan good).endLine + linesBefore bad, hlast, hstarts⟩
  have hmoved := parse_moved bad hgood
  obtain ⟨hscan', -⟩ := analyze_clean hgood
  obtain ⟨hstatements, hreports⟩ := analyze_joined_parse hscan hscan'
  have hbad : (analyze bad).reports = (parse (scan bad).tokens (scan bad).endLine).reports := by
    rw [analyze_reports, hscan, List.nil_append]
  have hderived := program_of_parse true (congrArg Parsed.reports hmoved)
  have hkept : (parse j.more j.endLine).statements ≠ [] := by
    intro hnil
    obtain ⟨t, rest, hmore, -⟩ := j.starts
    have hempty : Grammar.Program true (t :: rest) [] := by
      rw [← hmore, ← hnil]
      exact hderived
    cases hempty
  rw [hbad]
  rcases Parser.Junction.parse_follows (j := j) hderived List.suffix_rfl (scan bad).endLine with
    ⟨hamong, hall, hsame⟩ | ⟨⟨r, hr, hplace⟩, hlost⟩
  · refine iff_of_true ⟨?_, ?_⟩ ?_
    · rw [hstatements, analyze_statements, hall, show parse j.more j.endLine = _ from hmoved]
    · rw [hreports, hsame, show parse j.more j.endLine = _ from hmoved, List.append_nil]
      exact fun r hr => not_among_moved (hamong r hr)
    · intro r hr hplace
      obtain ⟨t, -, -, hat⟩ := hamong r hr
      rw [hplace] at hat
      cases hat
  · refine iff_of_false (fun hkeeps => ?_) fun hnone => hnone r hr hplace
    rcases hlost with ⟨r', hr', hmore⟩ | hlost
    · exact hkeeps.reports r' (hreports ▸ hr') hmore
    · have hnone := hkeeps.statements
      rw [hstatements, analyze_statements, show (parse _ _).statements = _ from hlost] at hnone
      rw [show parse j.more j.endLine = _ from hmoved] at hkept
      exact hkept (List.append_right_eq_self.mp hnone.symm)

/-- A fault in the body of a function, which ends with it; a statement behind it is kept. -/
theorem sequel_kept_iff_inner_fault :
    let bad := utf8 "fun f() \x7b print ; \x7d"
    let good := utf8 "var a = f;"
    (analyze bad).reports = [⟨1, .atLexeme (utf8 ";"), .syntactic .expectedExpression⟩] ∧ KeepsSequel bad good := by
  intro bad good
  have hreports : (analyze bad).reports = [⟨1, .atLexeme (utf8 ";"), .syntactic .expectedExpression⟩] := by decide +kernel
  refine ⟨hreports, (sequel_kept_iff (by decide +kernel) (by decide +kernel) (by decide +kernel) ?_).mpr ?_⟩
  · have hhead : (scan good).tokens.head? = some ⟨.var_, utf8 "var", 1⟩ := by decide +kernel
    obtain ⟨rest, hrest⟩ := List.head?_eq_some_iff.mp hhead
    exact ⟨_, rest, hrest, rfl⟩
  · rw [hreports]
    decide

/-- A block whose last statement has no semicolon, and a statement behind it. The brace is
skipped with the fault, so the block does not end and the statement is lost in it. -/
theorem sequel_lost_in_block :
    let bad := utf8 "\x7b 1 \x7d"
    let good := utf8 "print 2;"
    (scan bad).reports = [] ∧ Grammar.Balanced ((scan bad).tokens.map Token.kind) ∧
      ((scan bad).tokens.getLast?.map Token.kind) = some .rightBrace ∧ (analyze good).reports = [] ∧
      (scan good).tokens.head?.map Token.kind = some .print_ ∧
      (analyze (joined bad good)).statements = [] ∧
      (analyze (joined bad good)).reports =
        [⟨1, .atLexeme (utf8 "\x7d"), .syntactic .unendedExpression⟩, ⟨2, .atEnd, .syntactic .unclosedBlock⟩] ∧
      ¬ KeepsSequel bad good := by
  intro bad good
  have hnone : (analyze (joined bad good)).statements = [] := List.length_eq_zero_iff.mp (by decide +kernel)
  refine ⟨by decide +kernel, ?_, by decide +kernel, by decide +kernel, by decide +kernel, hnone, by decide +kernel, ?_⟩
  · have hkinds : (scan bad).tokens.map Token.kind = [.leftBrace, .number, .rightBrace] := by decide +kernel
    rw [hkinds]
    have hinside : Grammar.Balanced [.number] := .other rfl .nil
    exact .pair .braces hinside .nil
  · intro hkeeps
    have hlength := congrArg List.length hkeeps.statements
    rw [hnone, List.length_append, List.length_map] at hlength
    have hgood : (analyze good).statements.length = 1 := by decide +kernel
    simp only [List.length_nil] at hlength
    omega

end

end Lox
