/-
  Lox.Proofs.TreeDump — the text of a syntax tree says which tree it is. Identifiers are
  neither keywords nor numbers (`identifier_distinct`), and the numbers of a tree are values
  of literals, so every tree that was parsed is written as a form that can be read back. Two texts
  whose trees are shown alike therefore have the same tree up to lines, and
  each declaration is shown on a line of its own (`tree_dump_determines_program`).
-/

import Lox.Proofs.Grammar.Acceptance
import Lox.Proofs.Layout
import Lox.Proofs.Lexical.Scan
import Lox.Proofs.Render.ReadBack

namespace Lox

open Lexical (Lexeme isAlpha_iff isDigit_iff)

theorem wordByte_not_delimiter {b : UInt8} (h : Segment.isWordByte b = true) : b ∉ Form.delimiters := by
  intro hmem
  simp only [Form.delimiters, List.mem_cons, List.not_mem_nil, or_false] at hmem
  rcases hmem with rfl | rfl | rfl | rfl | rfl <;> exact absurd h (by decide)

/-- An identifier cannot be taken for a literal or for `this`. -/
theorem identifier_distinct {n : Name} (h : Lexeme .identifier n.text) : n.Distinct := by
  generalize htext : n.text = text at h
  cases h with
  | fixed hspelling => cases hspelling
  | @identifier c word halpha hword hfree =>
    have hall : ∀ b ∈ c :: word, Segment.isWordByte b = true := by
      intro b hb
      rcases List.mem_cons.mp hb with rfl | hb
      · rw [Segment.isWordByte, halpha, Bool.true_or]
      · exact hword b hb
    rw [Name.Distinct, htext]
    refine ⟨⟨Form.solid_iff.mpr ⟨List.cons_ne_nil c word, fun b hb => wordByte_not_delimiter (hall b hb)⟩, ?_, ?_⟩,
      hfree .this_ _ rfl⟩
    · rw [List.head?_cons, Option.any_some, Bool.eq_false_iff]
      intro hdigit
      rw [isAlpha_iff] at halpha
      rw [isDigit_iff] at hdigit
      omega
    · simp only [List.mem_cons, List.not_mem_nil, or_false, not_or]
      refine ⟨hfree .nil_ _ rfl, hfree .true_ _ rfl, hfree .false_ _ rfl, fun hinf => ?_⟩
      have hplus : utf8 "+Inf" = [43, 73, 110, 102] := by decide
      rw [hplus] at hinf
      exact absurd ((List.cons.inj hinf).1 ▸ halpha) (by decide)

theorem scan_leaves (source : Bytes) : LeafTokens Name.Distinct Number.Written (scan source).tokens :=
  ⟨fun t ht hkind => identifier_distinct (hkind ▸ Lexical.scan_lexeme source t ht),
    fun t _ _ => Number.read_written t.lexeme⟩

/-- The trees of accepted texts can be read back. -/
theorem analyze_leaves {source : Bytes} (h : (analyze source).reports = []) :
    Stmt.AllLeaves Name.Distinct Number.Written (analyze source).statements := by
  have hprogram : Grammar.Declarations true _ _ _ := (analyze_program h).1
  exact hprogram.leaves (scan_leaves source)

theorem renderStmts_eq (ss : List Stmt) : renderStmts ss = ss.map Stmt.render := by
  induction ss with
  | nil => rfl
  | cons s ss ih => rw [renderStmts, ih, List.map_cons]

theorem newline_not_mem_render {ss : List Stmt} (h : Stmt.AllLeaves Name.Distinct Number.Written ss) :
    ∀ s ∈ ss, Text.newline ∉ s.render := by
  induction ss with
  | nil => nofun
  | cons s ss ih =>
    intro s' hs'
    rcases List.mem_cons.mp hs' with rfl | hs'
    · rw [← Stmt.text_form]
      exact Form.newline_not_mem_text _ (Stmt.readable_form _ h.1)
    · exact ih h.2 s' hs'

/-- Programs that can be read back and are shown alike are equal up to lines. -/
theorem renderProgram_injective {first second : List Stmt} (h₁ : Stmt.AllLeaves Name.Distinct Number.Written first)
    (h₂ : Stmt.AllLeaves Name.Distinct Number.Written second) (h : renderProgram first = renderProgram second) :
    first.map (Stmt.renumber erased) = second.map (Stmt.renumber erased) := by
  unfold renderProgram at h
  rw [← Stmt.texts_forms, ← Stmt.texts_forms] at h
  have hforms := Form.unlines_injective (Stmt.readable_forms first h₁) (Stmt.readable_forms second h₂) h
  rw [← Stmt.renumberAll_eq, ← Stmt.renumberAll_eq, ← Stmt.stmts_forms first h₁, hforms, Stmt.stmts_forms second h₂]

theorem renderProgram_renumber (program : List Stmt) :
    renderProgram (program.map (Stmt.renumber erased)) = renderProgram program := by
  rw [renderProgram, ← Stmt.renumberAll_eq, renderStmts_renumber, renderProgram]

theorem tree_accepted {source : Bytes} (h : (Session.tree source).result = .done) :
    (analyze source).reports = [] ∧ (Session.tree source).output = renderProgram (analyze source).statements := by
  have hreports : (analyze source).reports = [] := by
    simp only [Session.tree, staticResult] at h
    split at h
    · rename_i herrors
      exact analyze_errors_eq_zero.mp herrors
    · cases h
  refine ⟨hreports, ?_⟩
  simp only [Session.tree, analyze_errors_eq_zero.mpr hreports, if_true]

/-- Two accepted texts are shown as the same tree exactly if their programs are equal up to
lines, and each declaration of a program has a line of its own. -/
theorem tree_dump_determines_program {first second : Bytes} (h₁ : (Session.tree first).result = .done)
    (h₂ : (Session.tree second).result = .done) :
    ((Session.tree first).output = (Session.tree second).output ↔
      (analyze first).statements.map (Stmt.renumber erased) = (analyze second).statements.map (Stmt.renumber erased)) ∧
    (Session.tree first).output = Text.unlines ((analyze first).statements.map Stmt.render) ∧
    ∀ s ∈ (analyze first).statements, Text.newline ∉ s.render := by
  obtain ⟨hreports₁, houtput₁⟩ := tree_accepted h₁
  obtain ⟨hreports₂, houtput₂⟩ := tree_accepted h₂
  have hleaves₁ := analyze_leaves hreports₁
  have hleaves₂ := analyze_leaves hreports₂
  refine ⟨⟨fun h => ?_, fun h => ?_⟩, ?_, newline_not_mem_render hleaves₁⟩
  · rw [houtput₁, houtput₂] at h
    exact renderProgram_injective hleaves₁ hleaves₂ h
  · rw [houtput₁, houtput₂, ← renderProgram_renumber, h, renderProgram_renumber]
  · rw [houtput₁, renderProgram, renderStmts_eq]

/-- A string with a line break, a parenthesis and a backslash in it, laid out in two ways. -/
theorem tree_dump_determines_program_strings :
    let first := utf8 "var a = \") \\\n(\"; a = -a;"
    let second := utf8 "var a = // a text\n\") \\\n(\";\na = - a;"
    (Session.tree first).output = utf8 "(var a = \") \\\\\\n(\")\n(; (= a (- a)))\n" ∧
      (analyze first).statements.map (Stmt.renumber erased) = (analyze second).statements.map (Stmt.renumber erased) := by
  intro first second
  have h₁ : (Session.tree first).result = .done := by decide +kernel
  have h₂ : (Session.tree second).result = .done := by decide +kernel
  have houtput : (Session.tree first).output = (Session.tree second).output := by decide +kernel
  exact ⟨by decide +kernel, (tree_dump_determines_program h₁ h₂).1.mp houtput⟩

end Lox
