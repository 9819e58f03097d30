/-
  Lox.Proofs.Parser.Yields — what a parser reads, and whether it has something to report.
  `Yields p s a s' valid` says that `p` reads `a`, and that it is silent exactly if `valid`
  holds. Where `Reads` takes a run apart, these lemmas put one together; reports are counted, so
  what comes after one is read from another count, and they speak of every count.
-/

import Lox.Proofs.Parser.Reads
import Lox.Proofs.Parser.Tally

namespace Lox

@[simp] theorem ParserState.counting_rest (s : ParserState) (errors : Nat) : (s.counting errors).rest = s.rest := rfl

def ParserState.within (s : ParserState) (context : Context) : ParserState := { s with context }

namespace Parser

open Grammar (nameOf Next next_cons)

variable {α β : Type} {s s' s₁ : ParserState} {a : α} {b : β} {p : Parser α} {g : α → Parser β} {V W : Prop}
variable {t : Token} {ts rest : List Token} {kind : TokenKind} {fault : SyntaxFault}

/-- `p` reads `a` in `s` and leaves off in `s'`, from any count of errors, and counts what it
reports; it reports nothing exactly if `valid`. -/
def Yields (p : Parser α) (s : ParserState) (a : α) (s' : ParserState) (valid : Prop) : Prop :=
  ∀ errors, ∃ reports,
    p (s.counting errors) = .read a (s'.counting (errors + reports.length)) reports ∧ (reports = [] ↔ valid)

/-- `p` reads `a` in `s`, leaves off in `s'`, and has nothing to report, from any count of errors. -/
def Silent (p : Parser α) (s : ParserState) (a : α) (s' : ParserState) : Prop :=
  ∀ errors, Reads p (s.counting errors) a (s'.counting errors)

theorem Yields.congr (h : Yields p s a s' V) (hv : V ↔ W) : Yields p s a s' W := by
  intro errors
  obtain ⟨reports, hp, hr⟩ := h errors
  exact ⟨reports, hp, hr.trans hv⟩

theorem Silent.yields (h : Silent p s a s') : Yields p s a s' True :=
  fun errors => ⟨[], h errors, by simp⟩

/-! ## Composition -/

theorem Yields.bind (hp : Yields p s a s₁ V) (hg : Yields (g a) s₁ b s' W) : Yields (p >>= g) s b s' (V ∧ W) := by
  intro errors
  obtain ⟨reports, hp, hv⟩ := hp errors
  obtain ⟨later, hg, hw⟩ := hg (errors + reports.length)
  refine ⟨reports ++ later, ?_, by rw [List.append_eq_nil_iff, hv, hw]⟩
  rw [bind_read hp, hg, List.length_append, ← Nat.add_assoc]
  rfl

/-- A silent step before the rest. -/
theorem Silent.bind (hp : Silent p s a s₁) (hg : Yields (g a) s₁ b s' V) : Yields (p >>= g) s b s' V :=
  (hp.yields.bind hg).congr (.of_eq (true_and V))

/-- A step with only silent ones after it. -/
theorem Yields.then (hp : Yields p s a s₁ V) (hg : Silent (g a) s₁ b s') : Yields (p >>= g) s b s' V :=
  (hp.bind hg.yields).congr (.of_eq (and_true V))

theorem Silent.seq (hp : Silent p s a s₁) (hg : Silent (g a) s₁ b s') : Silent (p >>= g) s b s' :=
  fun errors => reads_bind.mpr ⟨a, s₁.counting errors, hp errors, hg errors⟩

theorem Yields.map {f : α → β} (hp : Yields p s a s' V) : Yields (f <$> p) s (f a) s' V := by
  intro errors
  obtain ⟨reports, hp, hv⟩ := hp errors
  exact ⟨reports, by rw [map_run, hp], hv⟩

theorem silent_pure : Silent (pure a) s a s := fun _ => rfl

theorem silent_context : Silent context s s.context s := fun _ => rfl

/-! ## Steps on tokens -/

theorem silent_atEnd : Silent atEnd (s.at ts) ts.isEmpty (s.at ts) := fun _ => rfl

theorem expect_next (h : t.kind = kind) : Silent (expect kind fault) (s.at (t :: ts)) t (s.at ts) :=
  fun _ => reads_expect.mpr ⟨ts, rfl, h, rfl⟩

theorem expectName_next (h : t.kind = .identifier) : Silent (expectName fault) (s.at (t :: ts)) (nameOf t) (s.at ts) :=
  fun _ => reads_expectName.mpr ⟨t, ts, rfl, h, rfl, rfl⟩

theorem accept_next (h : t.kind = kind) : Silent (accept kind) (s.at (t :: ts)) true (s.at ts) :=
  fun _ => reads_accept.mpr (.inl ⟨t, ts, rfl, h, rfl, rfl⟩)

theorem accept_other (h : ¬ Next kind ts) : Silent (accept kind) (s.at ts) false (s.at ts) :=
  fun _ => reads_accept.mpr (.inr ⟨h, rfl, rfl⟩)

theorem accept?_next (h : t.kind = kind) : Silent (accept? kind) (s.at (t :: ts)) (some t) (s.at ts) :=
  fun _ => reads_accept?.mpr (.inl ⟨t, ts, rfl, h, rfl, rfl⟩)

theorem accept?_other (h : ¬ Next kind ts) : Silent (accept? kind) (s.at ts) none (s.at ts) :=
  fun _ => reads_accept?.mpr (.inr ⟨h, rfl, rfl⟩)

theorem take?_next {select : Token → Option α} (h : select t = some a) :
    Silent (take? select) (s.at (t :: ts)) (some a) (s.at ts) :=
  fun _ => reads_take?.mpr (.inl ⟨t, ts, a, rfl, h, rfl, rfl⟩)

theorem take?_other {select : Token → Option α} (h : ∀ t rest, ts = t :: rest → select t = none) :
    Silent (take? select) (s.at ts) none (s.at ts) :=
  fun _ => reads_take?.mpr (.inr ⟨h, rfl, rfl⟩)

/-! ## Optional phrases -/

theorem unless?_stop (h : Next kind ts) : Silent (unless? kind p) (s.at ts) none (s.at ts) :=
  fun _ => reads_unless?.mpr (.inl ⟨h, rfl, rfl⟩)

theorem check_other (h : ¬ Next kind ts) : Silent (check kind) (s.at ts) false (s.at ts) :=
  fun _ => reads_check.mpr ⟨iff_of_false Bool.false_ne_true h, rfl⟩

theorem Yields.unless? (h : ¬ Next kind ts) (hp : Yields p (s.at ts) a s' V) :
    Yields (unless? kind p) (s.at ts) (some a) s' V :=
  (check_other h).bind hp.map

theorem Yields.listed {l : List α} {p : Parser (List α)} (h : ¬ Next .rightParen ts)
    (hp : Yields p (s.at ts) l s' V) : Yields (listed p) (s.at ts) l s' V :=
  (hp.unless? h).map

theorem listed_stop {p : Parser (List α)} (h : Next .rightParen ts) : Silent (listed p) (s.at ts) [] (s.at ts) :=
  fun _ => reads_listed.mpr (.inl ⟨h, rfl, rfl⟩)

theorem Yields.after? (ht : t.kind = kind) (hp : Yields p (s.at ts) a s' V) :
    Yields (after? kind p) (s.at (t :: ts)) (some a) s' V :=
  (accept_next ht).bind hp.map

theorem after?_other (h : ¬ Next kind ts) : Silent (after? kind p) (s.at ts) none (s.at ts) :=
  fun _ => reads_after?.mpr (.inr ⟨h, rfl, rfl⟩)

/-! ## Limits, contexts and recovery -/

theorem yields_reportAt : Yields (reportAt t fault) s () s False :=
  fun _ => ⟨[_], rfl, by simp⟩

theorem yields_reportHere : Yields (reportHere fault) s () s False :=
  fun _ => ⟨[_], rfl, by simp⟩

theorem yields_limit {count : Nat} : Yields (limit count fault) s () s (count ≠ 255) := by
  unfold limit maxArguments
  by_cases h : count = 255
  · rw [if_pos h]
    exact yields_reportHere.congr (by simp [h])
  · rw [if_neg h]
    exact silent_pure.yields.congr (by simp [h])

theorem bracketed_read {enter leave : Context → Context} {reports : List Report}
    (h : p (s.within (enter s.context)) = .read a s' reports) :
    bracketed enter leave p s = .read a (s'.within (leave s'.context)) reports := by
  unfold bracketed
  rw [show p { s with context := enter s.context } = _ from h]
  rfl

theorem Yields.bracketed {enter leave : Context → Context} {c : Context}
    (h : Yields p ((s.within (enter s.context)).at ts) a ((s.within c).at rest) V) (hc : leave c = s.context) :
    Yields (bracketed enter leave p) (s.at ts) a (s.at rest) V := by
  intro errors
  obtain ⟨reports, hp, hv⟩ := h errors
  refine ⟨reports, (bracketed_read (s := (s.at ts).counting errors) hp).trans ?_, hv⟩
  simp only [ParserState.at, ParserState.within, ParserState.counting, hc]

theorem Yields.recovering {p : Parser Stmt} {st : Stmt} (h : Yields p s st s' V) :
    Yields (recovering p) s (some st) s' V := by
  intro errors
  obtain ⟨reports, hp, hv⟩ := h errors
  exact ⟨reports, by rw [Parser.recovering, hp], hv⟩

end Parser

end Lox
