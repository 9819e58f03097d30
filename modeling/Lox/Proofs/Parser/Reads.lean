/-
  Lox.Proofs.Parser.Reads — what a parser reads when it has nothing to report. Each lemma
  says of one way to build a parser exactly when it reads something, and where it leaves
  off; they serve both directions between the parser and the grammar.
-/

import Lox.Proofs.Grammar.Heads
import Lox.Proofs.Parser.Parallel

namespace Lox

def ParserState.at (s : ParserState) (rest : List Token) : ParserState := { s with rest }

namespace ParserState

@[simp] theorem at_rest (s : ParserState) (rest : List Token) : (s.at rest).rest = rest := rfl
@[simp] theorem at_context (s : ParserState) (rest : List Token) : (s.at rest).context = s.context := rfl

end ParserState

/-! ## Operators -/

namespace Grammar

def Precedence.level : Precedence → Parser.Level
  | .or => Parser.orLevel
  | .and => Parser.andLevel
  | .equality => Parser.equalityLevel
  | .comparison => Parser.comparisonLevel
  | .term => Parser.sumLevel
  | .factor => Parser.productLevel

/-- The levels of the parser are the precedences of the grammar, in the same order. -/
theorem levels_eq : Parser.levels = precedences.map Precedence.level := rfl

/-- An operator stands at a level if and only if the parser finds it there. -/
theorem operator_iff {p : Precedence} {kind : TokenKind} {combine : Nat → Expr → Expr → Expr} :
    Operator p kind combine ↔ p.level kind = some combine := by
  constructor
  · intro h
    cases h <;> rfl
  · intro h
    cases p <;> cases kind <;> cases h <;> constructor

end Grammar

namespace Parser

open Grammar (nameOf Next next_cons not_next_nil)

variable {α β : Type} {s s' : ParserState}

/-- `p` reads `a` in `s`, leaves off in `s'`, and has nothing to report. -/
def Reads (p : Parser α) (s : ParserState) (a : α) (s' : ParserState) : Prop := p s = .read a s' []

/-! ## Composition -/

@[simp] theorem reads_pure {a b : α} : Reads (pure a) s b s' ↔ b = a ∧ s' = s := by
  simp only [Reads, pure_run, ParserOutcome.read.injEq, and_true]
  exact ⟨fun ⟨h, h'⟩ => ⟨h.symm, h'.symm⟩, fun ⟨h, h'⟩ => ⟨h.symm, h'.symm⟩⟩

/-- Two phrases are read without faults one after the other. -/
@[simp] theorem reads_bind {p : Parser α} {g : α → Parser β} {b : β} :
    Reads (p >>= g) s b s' ↔ ∃ a s₁, Reads p s a s₁ ∧ Reads (g a) s₁ b s' := by
  constructor
  · intro h
    rw [Reads, bind_run] at h
    rcases hp : p s with ⟨a, s₁, reports⟩ | ⟨s₁, earlier, reason⟩ | _
    · rw [hp] at h
      simp only at h
      rcases hg : g a s₁ with ⟨b', s₂, later⟩ | ⟨s₂, later, reason⟩ | _
      · rw [hg] at h
        simp only [ParserOutcome.after, ParserOutcome.read.injEq, List.append_eq_nil_iff] at h
        obtain ⟨rfl, rfl, rfl, rfl⟩ := h
        exact ⟨a, s₁, hp, hg⟩
      · rw [hg] at h; cases h
      · rw [hg] at h; cases h
    · rw [hp] at h; cases h
    · rw [hp] at h; cases h
  · rintro ⟨a, s₁, hp, hg⟩
    rw [Reads, bind_read hp, hg]
    rfl

@[simp] theorem reads_map {p : Parser α} {g : α → β} {b : β} :
    Reads (g <$> p) s b s' ↔ ∃ a, Reads p s a s' ∧ b = g a := by
  show Reads (p >>= fun a => pure (g a)) s b s' ↔ _
  simp only [reads_bind, reads_pure]
  constructor
  · rintro ⟨a, s₁, hp, rfl, rfl⟩
    exact ⟨a, hp, rfl⟩
  · rintro ⟨a, hp, rfl⟩
    exact ⟨a, s', hp, rfl, rfl⟩

/-! ## Single steps -/

@[simp] theorem not_reads_exhausted {a : α} : ¬ Reads exhausted s a s' := by
  intro h; cases h

@[simp] theorem not_reads_reject {fault : SyntaxFault} {a : α} : ¬ Reads (reject fault) s a s' := by
  intro h; cases h

/-- Reading without faults reports nothing. -/
@[simp] theorem not_reads_reportAt {t : Token} {fault : SyntaxFault} {a : Unit} : ¬ Reads (reportAt t fault) s a s' := by
  intro h; cases h

@[simp] theorem reads_context {c : Context} : Reads context s c s' ↔ c = s.context ∧ s' = s := by
  constructor
  · intro h; cases h; exact ⟨rfl, rfl⟩
  · rintro ⟨rfl, rfl⟩; rfl

@[simp] theorem reads_limit {count : Nat} {fault : SyntaxFault} {a : Unit} :
    Reads (limit count fault) s a s' ↔ count ≠ 255 ∧ s' = s := by
  unfold limit
  split
  · rename_i h
    constructor
    · intro h; cases h
    · rintro ⟨hne, -⟩; exact absurd h hne
  · rename_i h
    simp only [reads_pure, true_and]
    exact ⟨fun h' => ⟨h, h'⟩, fun h' => h'.2⟩

theorem reads_atEnd {b : Bool} : Reads atEnd s b s' ↔ b = s.rest.isEmpty ∧ s' = s := by
  constructor
  · intro h; cases h; exact ⟨rfl, rfl⟩
  · rintro ⟨rfl, rfl⟩; rfl

theorem check_eq (kind : TokenKind) (s : ParserState) :
    (s.rest.head?.any (·.kind == kind)) = true ↔ Next kind s.rest := by
  rcases s.rest with _ | ⟨t, rest⟩ <;> simp

theorem reads_check {kind : TokenKind} {b : Bool} :
    Reads (check kind) s b s' ↔ (b = true ↔ Next kind s.rest) ∧ s' = s := by
  rw [← check_eq]
  constructor
  · intro h; cases h; exact ⟨Iff.rfl, rfl⟩
  · rintro ⟨h, rfl⟩
    have hb : b = s'.rest.head?.any (·.kind == kind) := Bool.eq_iff_iff.mpr h
    rw [hb]; rfl

theorem reads_atBodyEnd {b : Bool} :
    Reads atBodyEnd s b s' ↔ (b = true ↔ s.rest = [] ∨ Next .rightBrace s.rest) ∧ s' = s := by
  have he : (s.rest.head?.all (·.kind == .rightBrace)) = true ↔ s.rest = [] ∨ Next .rightBrace s.rest := by
    rcases s.rest with _ | ⟨t, rest⟩ <;> simp
  rw [← he]
  constructor
  · intro h; cases h; exact ⟨Iff.rfl, rfl⟩
  · rintro ⟨h, rfl⟩
    have hb : b = s'.rest.head?.all (·.kind == .rightBrace) := Bool.eq_iff_iff.mpr h
    rw [hb]; rfl

theorem reads_take? {select : Token → Option α} {o : Option α} :
    Reads (take? select) s o s' ↔
      (∃ t rest a, s.rest = t :: rest ∧ select t = some a ∧ o = some a ∧ s' = s.at rest) ∨
      ((∀ t rest, s.rest = t :: rest → select t = none) ∧ o = none ∧ s' = s) := by
  unfold Reads take?
  rcases hr : s.rest with _ | ⟨t, rest⟩
  · simp [eq_comm]
  · rcases hsel : select t with _ | a
    · simp [hsel, eq_comm]
    · simp only [hsel, ParserOutcome.read.injEq, and_true, List.cons.injEq]
      constructor
      · rintro ⟨rfl, rfl⟩
        exact .inl ⟨t, rest, a, ⟨rfl, rfl⟩, hsel, rfl, rfl⟩
      · rintro (⟨_, _, a', ⟨rfl, rfl⟩, hsel', rfl, rfl⟩ | ⟨hnone, -, -⟩)
        · cases hsel.symm.trans hsel'
          exact ⟨rfl, rfl⟩
        · cases hsel.symm.trans (hnone t rest ⟨rfl, rfl⟩)

theorem reads_accept? {kind : TokenKind} {o : Option Token} :
    Reads (accept? kind) s o s' ↔
      (∃ t rest, s.rest = t :: rest ∧ t.kind = kind ∧ o = some t ∧ s' = s.at rest) ∨
      (¬ Next kind s.rest ∧ o = none ∧ s' = s) := by
  unfold accept?
  rw [reads_take?]
  constructor
  · rintro (⟨t, rest, a, hr, hsel, rfl, rfl⟩ | ⟨hnone, rfl, rfl⟩)
    · obtain ⟨hk, rfl⟩ : t.kind = kind ∧ t = a := by simpa using hsel
      exact .inl ⟨t, rest, hr, hk, rfl, rfl⟩
    · refine .inr ⟨?_, rfl, rfl⟩
      rintro ⟨t, rest, hr, hk⟩
      cases (if_pos hk).symm.trans (hnone t rest hr)
  · rintro (⟨t, rest, hr, hk, rfl, rfl⟩ | ⟨hn, rfl, rfl⟩)
    · exact .inl ⟨t, rest, t, hr, if_pos hk, rfl, rfl⟩
    · exact .inr ⟨fun t rest hr => if_neg fun hk => hn ⟨t, rest, hr, hk⟩, rfl, rfl⟩

theorem reads_accept {kind : TokenKind} {b : Bool} :
    Reads (accept kind) s b s' ↔
      (∃ t rest, s.rest = t :: rest ∧ t.kind = kind ∧ b = true ∧ s' = s.at rest) ∨
      (¬ Next kind s.rest ∧ b = false ∧ s' = s) := by
  unfold accept
  simp only [reads_map, reads_accept?]
  constructor
  · rintro ⟨_, ⟨t, rest, hr, hk, rfl, hs⟩ | ⟨hn, rfl, hs⟩, rfl⟩
    · exact .inl ⟨t, rest, hr, hk, rfl, hs⟩
    · exact .inr ⟨hn, rfl, hs⟩
  · rintro (⟨t, rest, hr, hk, rfl, hs⟩ | ⟨hn, rfl, hs⟩)
    · exact ⟨some t, .inl ⟨t, rest, hr, hk, rfl, hs⟩, rfl⟩
    · exact ⟨none, .inr ⟨hn, rfl, hs⟩, rfl⟩

theorem reads_expect {kind : TokenKind} {fault : SyntaxFault} {t : Token} :
    Reads (expect kind fault) s t s' ↔ ∃ rest, s.rest = t :: rest ∧ t.kind = kind ∧ s' = s.at rest := by
  unfold expect
  simp only [reads_bind, reads_accept?]
  constructor
  · rintro ⟨_, _, ⟨t', rest, hr, hk, rfl, rfl⟩ | ⟨hn, rfl, rfl⟩, h⟩
    · obtain ⟨rfl, rfl⟩ := reads_pure.mp h
      exact ⟨rest, hr, hk, rfl⟩
    · exact absurd h not_reads_reject
  · rintro ⟨rest, hr, hk, rfl⟩
    exact ⟨some t, s.at rest, .inl ⟨t, rest, hr, hk, rfl, rfl⟩, reads_pure.mpr ⟨rfl, rfl⟩⟩

theorem reads_expectName {fault : SyntaxFault} {name : Name} :
    Reads (expectName fault) s name s' ↔
      ∃ t rest, s.rest = t :: rest ∧ t.kind = .identifier ∧ name = nameOf t ∧ s' = s.at rest := by
  unfold expectName
  simp only [reads_bind, reads_expect, reads_pure]
  constructor
  · rintro ⟨t, _, ⟨rest, hr, hk, rfl⟩, rfl, rfl⟩
    exact ⟨t, rest, hr, hk, rfl, rfl⟩
  · rintro ⟨t, rest, hr, hk, rfl, rfl⟩
    exact ⟨t, s.at rest, ⟨rest, hr, hk, rfl⟩, rfl, rfl⟩

/-! ## Optional phrases -/

theorem reads_after? {kind : TokenKind} {p : Parser α} {o : Option α} :
    Reads (after? kind p) s o s' ↔
      (∃ t rest a, s.rest = t :: rest ∧ t.kind = kind ∧ Reads p (s.at rest) a s' ∧ o = some a) ∨
      (¬ Next kind s.rest ∧ o = none ∧ s' = s) := by
  unfold after?
  simp only [reads_bind, reads_accept]
  constructor
  · rintro ⟨_, _, ⟨t, rest, hr, hk, rfl, rfl⟩ | ⟨hn, rfl, rfl⟩, h⟩
    · obtain ⟨a, ha, rfl⟩ := reads_map.mp h
      exact .inl ⟨t, rest, a, hr, hk, ha, rfl⟩
    · obtain ⟨rfl, rfl⟩ := reads_pure.mp h
      exact .inr ⟨hn, rfl, rfl⟩
  · rintro (⟨t, rest, a, hr, hk, ha, rfl⟩ | ⟨hn, rfl, rfl⟩)
    · exact ⟨true, s.at rest, .inl ⟨t, rest, hr, hk, rfl, rfl⟩, reads_map.mpr ⟨a, ha, rfl⟩⟩
    · exact ⟨false, s', .inr ⟨hn, rfl, rfl⟩, reads_pure.mpr ⟨rfl, rfl⟩⟩

theorem reads_unless? {stop : TokenKind} {p : Parser α} {o : Option α} :
    Reads (unless? stop p) s o s' ↔
      (Next stop s.rest ∧ o = none ∧ s' = s) ∨ (¬ Next stop s.rest ∧ ∃ a, Reads p s a s' ∧ o = some a) := by
  unfold unless?
  simp only [reads_bind, reads_check]
  constructor
  · rintro ⟨b, _, ⟨hb, rfl⟩, h⟩
    cases b with
    | true =>
      obtain ⟨rfl, rfl⟩ := reads_pure.mp h
      exact .inl ⟨hb.mp rfl, rfl, rfl⟩
    | false => exact .inr ⟨fun hn => by simpa using hb.mpr hn, reads_map.mp h⟩
  · rintro (⟨hn, rfl, rfl⟩ | ⟨hn, h⟩)
    · exact ⟨true, s', ⟨by simp [hn], rfl⟩, reads_pure.mpr ⟨rfl, rfl⟩⟩
    · exact ⟨false, s, ⟨by simp [hn], rfl⟩, reads_map.mpr h⟩

theorem reads_listed {p : Parser (List α)} {l : List α} :
    Reads (listed p) s l s' ↔
      (Next .rightParen s.rest ∧ l = [] ∧ s' = s) ∨ (¬ Next .rightParen s.rest ∧ Reads p s l s') := by
  unfold listed
  simp only [reads_map, reads_unless?]
  constructor
  · rintro ⟨_, ⟨hn, rfl, rfl⟩ | ⟨hn, a, ha, rfl⟩, rfl⟩
    · exact .inl ⟨hn, rfl, rfl⟩
    · exact .inr ⟨hn, ha⟩
  · rintro (⟨hn, rfl, rfl⟩ | ⟨hn, h⟩)
    · exact ⟨none, .inl ⟨hn, rfl, rfl⟩, rfl⟩
    · exact ⟨some l, .inr ⟨hn, l, h, rfl⟩, rfl⟩

/-! ## Contexts and recovery -/

theorem reads_bracketed {enter leave : Context → Context} {p : Parser α} {a : α} :
    Reads (bracketed enter leave p) s a s' ↔
      ∃ s₁, Reads p { s with context := enter s.context } a s₁ ∧ s' = { s₁ with context := leave s₁.context } := by
  unfold Reads bracketed
  constructor
  · intro h
    split at h
    · rename_i s₁ reports hp
      simp only [ParserOutcome.read.injEq] at h
      obtain ⟨rfl, rfl, rfl⟩ := h
      exact ⟨s₁, hp, rfl⟩
    · cases h
    · cases h
  · rintro ⟨s₁, hp, rfl⟩
    rw [hp]

theorem reads_recovering {p : Parser Stmt} {o : Option Stmt} :
    Reads (recovering p) s o s' ↔ ∃ a, Reads p s a s' ∧ o = some a := by
  unfold Reads recovering
  constructor
  · intro h
    split at h
    · rename_i a s₁ reports hp
      simp only [ParserOutcome.read.injEq] at h
      obtain ⟨rfl, rfl, rfl⟩ := h
      exact ⟨a, hp, rfl⟩
    · simp at h
    · cases h
  · rintro ⟨a, hp, rfl⟩
    rw [hp]

end Parser

end Lox
