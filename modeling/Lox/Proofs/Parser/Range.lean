/-
  Lox.Proofs.Parser.Range — a parse stays inside of its array and comes to its end. No
  declaration that is started before the end is read from nothing (`declaration_advances`):
  a phrase that reads without taking a token is never the first of one, and recovery moves on
  from where a phrase gave up.
-/

import Lox.Proofs.Parser.Context
import Lox.Proofs.Parser.Indexed

namespace Lox

open Lox.Parser Indexed

/-! ## Progress -/

namespace Parser

variable {α β : Type} {i : Inner}

def Consumes (p : Parser α) : Prop :=
  ∀ s a s' reports, p s = .read a s' reports → s'.rest.length < s.rest.length

/-- No step puts a token back. -/
theorem Steps.length_le {p : Parser α} (d : Steps p) {s s' : ParserState} {a : α} {reports : List Report}
    (h : p s = .read a s' reports) : s'.rest.length ≤ s.rest.length := by
  -- A token in front, for recovery at the end of the text to look back at.
  let tokens : List Token := ⟨.semicolon, [], 0⟩ :: s.rest
  have hpos : 0 < tokens.length := Nat.succ_pos _
  have htracks := d.tracks s.endLine hpos ⟨1, s.context⟩ s.errors hpos
  rw [show Cursor.state tokens s.endLine s.errors ⟨1, s.context⟩ = s from rfl, h] at htracks
  obtain ⟨c', errors, -, rfl, hle, -⟩ := htracks.of_read
  have hle : 1 ≤ c'.current := hle
  have hdrop : (tokens.drop c'.current).length ≤ (tokens.drop 1).length := by
    simp only [List.length_drop]
    omega
  exact hdrop

theorem bind_reads {p : Parser α} {g : α → Parser β} {s s' : ParserState} {b : β} {reports : List Report}
    (h : (p >>= g) s = .read b s' reports) :
    ∃ a s₁ earlier later, p s = .read a s₁ earlier ∧ g a s₁ = .read b s' later := by
  rcases hp : p s with ⟨a, s₁, earlier⟩ | ⟨s₁, earlier, reason⟩ | _
  · rw [bind_read hp] at h
    rcases hg : g a s₁ with ⟨b', s₂, later⟩ | ⟨s₂, later, reason⟩ | _
    · rw [hg] at h
      cases h
      exact ⟨a, s₁, earlier, later, rfl, hg⟩
    · rw [hg] at h
      cases h
    · rw [hg] at h
      cases h
  · rw [bind_run, hp] at h
    cases h
  · rw [bind_exhausted hp] at h
    cases h

/-- It is enough that the first of two phrases takes a token. -/
theorem Consumes.bind {p : Parser α} {g : α → Parser β} (hp : Consumes p) (d : ∀ a, Steps (g a)) :
    Consumes (p >>= g) := by
  intro s b s' reports h
  obtain ⟨a, s₁, earlier, later, hfirst, hsecond⟩ := bind_reads h
  exact Nat.lt_of_le_of_lt ((d a).length_le hsecond) (hp s a s₁ earlier hfirst)

theorem Consumes.reject (fault : SyntaxFault) : Consumes (reject fault : Parser α) := by
  intro s a s' reports h
  cases h

theorem take?_run (select : Token → Option α) (s : ParserState) :
    take? select s = .read none s [] ∨
      ∃ t rest a, s.rest = t :: rest ∧ select t = some a ∧ take? select s = .read (some a) { s with rest := rest } [] := by
  unfold take?
  split
  · exact .inl rfl
  · rename_i t rest hrest
    cases hselect : select t with
    | none => exact .inl rfl
    | some a => exact .inr ⟨t, rest, a, hrest, hselect, rfl⟩

/-- A token taken, or something read without it. -/
theorem Consumes.branch {select : Token → Option α} {g : Option α → Parser β}
    (found : ∀ t a, select t = some a → Steps (g (some a))) (other : Consumes (g none)) :
    Consumes (take? select >>= g) := by
  intro s b s' reports h
  rcases take?_run select s with htake | ⟨t, rest, a, hrest, hselect, htake⟩
  · rw [bind_read htake, ParserOutcome.after_nil] at h
    exact other s b s' reports h
  · rw [bind_read htake, ParserOutcome.after_nil] at h
    have hle := (found t a hselect).length_le h
    rw [hrest]
    exact Nat.lt_succ_of_le hle

theorem binary_consumes (bound : Nat) {tightest : Parser Expr} (d : Steps tightest) (h : Consumes tightest) :
    ∀ levels, Consumes (binary bound tightest levels)
  | [] => h
  | level :: tighter =>
    (binary_consumes bound d h tighter).bind (Steps.operands (Steps.binary bound d tighter) level bound)

theorem unary_consumes (d : i.Steps) : Consumes (unary i) :=
  .branch (fun _ _ _ => d.unary.bind fun _ => .pure _)
    ((Consumes.branch (Steps.primaryFrom d) (.reject _)).bind (Steps.accesses d i.bound))

theorem expression_consumes (d : i.Steps) : Consumes (expression i) := by
  refine (binary_consumes i.bound (Steps.unary d) (unary_consumes d) levels).bind fun left => ?_
  refine .branch (fun _ equal _ => d.expression.bind fun value => ?_) (.pure left)
  cases assignTo? value left with
  | some assignment => exact .pure assignment
  | none => exact (Steps.reportAt equal _).bind fun _ => .pure left

/-- No declaration is read without a token of its own. -/
theorem plainDeclaration_consumes (d : i.Steps) : Consumes (plainDeclaration i) :=
  .branch (Steps.declarationFrom d) <| .branch (Steps.statementFrom d) <|
    (expression_consumes d).bind fun _ => (Steps.expect _ _).bind fun _ => .pure _

end Parser

/-! ## Declarations and whole programs -/

variable {tokens : List Token} {endLine : Nat}

/-- A declaration before the end of the text takes at least one token, whether it is read or
given up and recovered from. -/
theorem declaration_advances {i : Inner} (d : i.Steps) {c : Cursor} (hc : c.current < tokens.length) :
    (Steps.declaration d).indexed (entries tokens endLine) c = .exhausted ∨
      ∃ first c' reports, (Steps.declaration d).indexed (entries tokens endLine) c = .read first c' reports ∧
        c.current < c'.current ∧ c'.current ≤ tokens.length := by
  have hpos : 0 < tokens.length := by omega
  have htracks := (Steps.plainDeclaration d).tracks endLine hpos c 0 (Nat.le_of_lt hc)
  have hdecl : (Steps.declaration d).indexed (entries tokens endLine) c =
      Indexed.recovering (Steps.plainDeclaration d).indexed (entries tokens endLine) c := rfl
  rw [hdecl, Indexed.recovering]
  generalize hp : plainDeclaration i (c.state tokens endLine 0) = out at htracks
  generalize (Steps.plainDeclaration d).indexed (entries tokens endLine) c = out' at htracks
  cases htracks with
  | @read statement c' reports errors h₁ h₂ =>
    have hlt := plainDeclaration_consumes d _ _ _ _ hp
    simp only [Cursor.state, List.length_drop] at hlt
    exact .inr ⟨some statement, c', reports, rfl, by omega, h₂⟩
  | @rejected c' earlier reason errors h₁ h₂ =>
    obtain ⟨c'', hsync, -, hle, hmoved, -⟩ := synchronize_run endLine h₂ hpos
    refine .inr ⟨none, c'', earlier ++ [reason], ?_, by omega, hle⟩
    dsimp only
    rw [bind_read hsync, Indexed.pure_run, IndexedOutcome.after, List.append_nil]
  | exhausted => exact .inl rfl

/-- With a bound above the number of tokens left, a declaration comes back. -/
theorem declaration_ends {b : Nat} {c : Cursor} (hc : c.current < tokens.length) (hb : tokens.length - c.current < b) :
    (Steps.declaration (Steps.inner b)).indexed (entries tokens endLine) c ≠ .exhausted := by
  have hlength : (c.state tokens endLine 0).rest.length < b := by simpa [Cursor.state] using hb
  obtain ⟨first, s', reports, hrun, -⟩ := declaration_returns hlength
  have htracks := (Steps.declaration (Steps.inner b)).tracks endLine (Nat.zero_lt_of_lt hc) c 0 (Nat.le_of_lt hc)
  rw [hrun] at htracks
  obtain ⟨c', errors, hread, -⟩ := htracks.of_read
  rw [hread]
  simp

/-- A program is read to the end of its text. -/
theorem program_reads (tokens : List Token) (endLine : Nat) {b n : Nat} (hb : tokens.length < b) (hn : tokens.length < n) :
    ∃ errors, program (inner b) n { rest := tokens, endLine } =
      .read (parse tokens endLine).statements { rest := [], endLine, errors } (parse tokens endLine).reports := by
  have hpar := program_parallel (f := id) tokens.length hb hb n n hn hn { rest := tokens, endLine } (Nat.le_refl _)
  obtain ⟨s', hrun⟩ := program_run id (s := { rest := tokens, endLine }) hb hn rfl
  rw [renumber_id_state, Parsed.renumber_id] at hrun
  rw [hrun] at hpar ⊢
  obtain ⟨_, _, s₁, reports, hread, -, hf, hj, -⟩ | ⟨_, _, _, hread, -, -⟩ := hpar.cases
  · cases hread
    have hs : s' = { rest := [], endLine, errors := s'.errors } := by
      obtain ⟨rest, line, context, errors⟩ := s'
      exact (ParserState.mk.injEq ..).mpr ⟨List.length_eq_zero_iff.mp hj, hf.endLine, hf.context, rfl⟩
    exact ⟨s'.errors, by rw [← hs]⟩
  · cases hread

/-- Reading a whole program by index gives what `parse` gives, and ends behind the last token. -/
theorem program_indexed (tokens : List Token) (endLine : Nat) {b n : Nat} (hb : tokens.length < b) (hn : tokens.length < n) :
    (Steps.program (Steps.inner b) n).indexed (entries tokens endLine) ⟨0, {}⟩ =
      .read (parse tokens endLine).statements ⟨tokens.length, {}⟩ (parse tokens endLine).reports := by
  obtain ⟨errors, hreads⟩ := program_reads tokens endLine hb hn
  rcases Nat.eq_zero_or_pos tokens.length with hzero | hpos
  · -- No declaration is started here, so nothing is looked back at.
    cases List.length_eq_zero_iff.mp hzero
    obtain ⟨n, rfl⟩ : ∃ k, n = k + 1 := ⟨n - 1, by omega⟩
    rfl
  · have htracks := (Steps.program (Steps.inner b) n).tracks endLine hpos ⟨0, {}⟩ 0 (Nat.zero_le _)
    rw [show Cursor.state tokens endLine 0 ⟨0, {}⟩ = { rest := tokens, endLine } from rfl, hreads] at htracks
    obtain ⟨⟨current, context⟩, errors, hrun, hstate, -, hle⟩ := htracks.of_read
    simp only [Cursor.state, ParserState.mk.injEq, true_and] at hstate
    obtain ⟨hdrop, rfl, -⟩ := hstate
    have hend : current = tokens.length := Nat.le_antisymm hle (List.drop_eq_nil_iff.mp hdrop.symm)
    rw [hrun, hend]

/-- Where a run by index started at `c` may end: not outside of the array, and not before `c`. -/
def IndexedOutcome.InRange {α : Type} (size : Nat) (c : Cursor) : IndexedOutcome α → Prop
  | .read _ c' _ => c.current ≤ c'.current ∧ c'.current < size
  | .rejected c' _ _ => c.current ≤ c'.current ∧ c'.current < size
  | .exhausted => True
  | .outOfRange => False

theorem Tracks.inRange {c : Cursor} {α : Type} {out : ParserOutcome α} {out' : IndexedOutcome α}
    (h : Tracks tokens endLine c out out') : out'.InRange (entries tokens endLine).size c := by
  have hsize : (entries tokens endLine).size = tokens.length + 1 := by simp [entries]
  rw [hsize]
  cases h with
  | read h₁ h₂ => exact ⟨h₁, Nat.lt_succ_of_le h₂⟩
  | rejected h₁ h₂ => exact ⟨h₁, Nat.lt_succ_of_le h₂⟩
  | exhausted => trivial

/-- Over an array of tokens that ends in its only end mark, reading a program by index comes
to that mark, whatever bounds above the number of tokens it is given, and finds what `parse`
finds. On the way, each piece of a parser that is started at an entry asks for no entry that
is not there, nor for one before the first, and comes out at the same entry or a later one.
And each declaration that is started before the end mark comes out at a later one. -/
theorem parse_stays_in_range (tokens : List Token) (endLine : Nat) :
    (∀ b n, tokens.length < b → tokens.length < n →
      (Steps.program (Steps.inner b) n).indexed (entries tokens endLine) ⟨0, {}⟩ =
        .read (parse tokens endLine).statements ⟨tokens.length, {}⟩ (parse tokens endLine).reports) ∧
    (tokens ≠ [] → ∀ (α : Type) (p : Parser α) (d : Steps p) (c : Cursor), c.current ≤ tokens.length →
      (d.indexed (entries tokens endLine) c).InRange (entries tokens endLine).size c) ∧
    ∀ b (c : Cursor), c.current < tokens.length →
      ((Steps.declaration (Steps.inner b)).indexed (entries tokens endLine) c = .exhausted ∧
        b ≤ tokens.length - c.current) ∨
      ∃ first c' reports, (Steps.declaration (Steps.inner b)).indexed (entries tokens endLine) c =
          .read first c' reports ∧ c.current < c'.current ∧ c'.current ≤ tokens.length := by
  refine ⟨fun b n => program_indexed tokens endLine, ?_, ?_⟩
  · intro hne α p d c hc
    exact (d.tracks endLine (List.length_pos_iff.mpr hne) c 0 hc).inRange
  · intro b c hc
    rcases declaration_advances (Steps.inner b) hc with hexhausted | hread
    · refine .inl ⟨hexhausted, ?_⟩
      exact Nat.le_of_not_lt fun hb => declaration_ends hc hb hexhausted
    · exact .inr hread

/-- A statement that the text breaks off in. -/
def brokenOff : List Token := [⟨.print_, utf8 "print", 1⟩]

/-- Recovery starts at the end of the text here, and looks back at the only token. -/
theorem parse_stays_in_range_brokenOff :
    (Steps.program (Steps.inner 2) 2).indexed (entries brokenOff 1) ⟨0, {}⟩ =
      .read [] ⟨1, {}⟩ [⟨1, .atEnd, .syntactic .expectedExpression⟩] ∧
    (Indexed.synchronize (entries brokenOff 1) ⟨1, {}⟩ = .read () ⟨1, {}⟩ [] ∧
      ((Steps.recovering (.reject .expectedExpression)).indexed (entries brokenOff 1) ⟨1, {}⟩).InRange
        (entries brokenOff 1).size ⟨1, {}⟩) ∧
    ∃ first c' reports, (Steps.declaration (Steps.inner 2)).indexed (entries brokenOff 1) ⟨0, {}⟩ =
      .read first c' reports ∧ 0 < c'.current ∧ c'.current ≤ 1 := by
  obtain ⟨hruns, hpieces, hdeclarations⟩ := parse_stays_in_range brokenOff 1
  refine ⟨hruns 2 2 (by decide) (by decide), ⟨rfl, ?_⟩, ?_⟩
  · exact hpieces (by decide) _ _ (.recovering (.reject .expectedExpression)) ⟨1, {}⟩ (Nat.le_refl _)
  · exact (hdeclarations 2 ⟨0, {}⟩ (by decide)).resolve_left fun h => absurd h.2 (by decide)

end Lox
