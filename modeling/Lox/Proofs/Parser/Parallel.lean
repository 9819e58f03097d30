/-
  Lox.Proofs.Parser.Parallel — two parsers side by side, the second on the same tokens with
  other line numbers. `Parallel f n R p q` says that from every state with at most `n`
  tokens left the two do the same up to the numbers: they read related things or both
  reject, move equally far, and report alike. Neither is exhausted; both come back to the
  context they were started in.

  `R` also sees how many tokens are left in the end. So one relation carries what is wanted
  of the bounds (parsers of different bounds do the same), of lines (they are only passed
  on), of contexts and of progress, and each phrase is gone through once for all of them.
-/

import Lox.Proofs.Renumber
import Lox.Tree.Parser.Statement

namespace Lox

def ParserState.renumber (f : Nat → Nat) (s : ParserState) : ParserState :=
  { s with rest := s.rest.map (Token.renumber f), endLine := f s.endLine }

/-- Later in the same text, in the same context. -/
structure ParserState.Follows (s' s : ParserState) : Prop where
  suffix : s'.rest <:+ s.rest
  endLine : s'.endLine = s.endLine
  context : s'.context = s.context

namespace ParserState

variable {s s' s'' : ParserState}

@[simp] theorem renumber_rest (f : Nat → Nat) (s : ParserState) :
    (s.renumber f).rest = s.rest.map (Token.renumber f) := rfl
@[simp] theorem renumber_endLine (f : Nat → Nat) (s : ParserState) : (s.renumber f).endLine = f s.endLine := rfl
@[simp] theorem renumber_context (f : Nat → Nat) (s : ParserState) : (s.renumber f).context = s.context := rfl

theorem Follows.refl (s : ParserState) : s.Follows s := ⟨List.suffix_rfl, rfl, rfl⟩

theorem Follows.trans (h' : s''.Follows s') (h : s'.Follows s) : s''.Follows s :=
  ⟨h'.suffix.trans h.suffix, h'.endLine.trans h.endLine, h'.context.trans h.context⟩

theorem Follows.tallied (s : ParserState) : s.tallied.Follows s := ⟨List.suffix_rfl, rfl, rfl⟩

theorem Follows.length_le (h : s'.Follows s) : s'.rest.length ≤ s.rest.length := h.suffix.length_le

end ParserState

namespace Parser

variable {α β γ δ : Type} {f : Nat → Nat} {n : Nat}

/-- Outcomes of two parsers that were started in `s` and in `s` renumbered. -/
inductive Alike (f : Nat → Nat) (s : ParserState) (R : Nat → α → β → Prop) :
    ParserOutcome α → ParserOutcome β → Prop
  | read {a : α} {b : β} {s' : ParserState} {reports : List Report} :
      s'.Follows s → R s'.rest.length a b →
      Alike f s R (.read a s' reports) (.read b (s'.renumber f) (reports.map (Report.renumber f)))
  | rejected {s' : ParserState} {earlier : List Report} {reason : Report} : s'.Follows s →
      Alike f s R (.rejected s' earlier reason)
        (.rejected (s'.renumber f) (earlier.map (Report.renumber f)) (reason.renumber f))

theorem Alike.cases {s : ParserState} {R : Nat → α → β → Prop} {out : ParserOutcome α} {out' : ParserOutcome β}
    (h : Alike f s R out out') :
    (∃ a b s' reports, out = .read a s' reports ∧ out' = .read b (s'.renumber f) (reports.map (Report.renumber f)) ∧
      s'.Follows s ∧ R s'.rest.length a b) ∨
    (∃ s' earlier reason, out = .rejected s' earlier reason ∧
      out' = .rejected (s'.renumber f) (earlier.map (Report.renumber f)) (reason.renumber f) ∧ s'.Follows s) := by
  cases h with
  | read hf hab => exact .inl ⟨_, _, _, _, rfl, rfl, hf, hab⟩
  | rejected hf => exact .inr ⟨_, _, _, rfl, rfl, hf⟩

def Parallel (f : Nat → Nat) (n : Nat) (R : Nat → α → β → Prop) (p : Parser α) (q : Parser β) : Prop :=
  ∀ s : ParserState, s.rest.length ≤ n → Alike f s R (p s) (q (s.renumber f))

/-! ## Runs -/

@[simp] theorem ParserOutcome.after_nil (out : ParserOutcome α) : out.after [] = out := by cases out <;> rfl

theorem pure_run (a : α) (s : ParserState) : (pure a : Parser α) s = .read a s [] := rfl

theorem bind_run (p : Parser α) (g : α → Parser β) (s : ParserState) :
    (p >>= g) s = match p s with
      | .read a s' reports => (g a s').after reports
      | .rejected s' earlier reason => .rejected s' earlier reason
      | .exhausted => .exhausted := rfl

theorem bind_read {p : Parser α} {g : α → Parser β} {s s' : ParserState} {a : α} {reports : List Report}
    (h : p s = .read a s' reports) : (p >>= g) s = (g a s').after reports := by rw [bind_run, h]

theorem bind_exhausted {p : Parser α} {g : α → Parser β} {s : ParserState} (h : p s = .exhausted) :
    (p >>= g) s = .exhausted := by rw [bind_run, h]

theorem bind_pure_run (p : Parser α) (s : ParserState) : (p >>= pure) s = p s := by
  rw [bind_run]
  cases p s <;> simp [pure_run, ParserOutcome.after]

theorem map_run (g : α → β) (p : Parser α) (s : ParserState) :
    (g <$> p) s = match p s with
      | .read a s' reports => .read (g a) s' reports
      | .rejected s' earlier reason => .rejected s' earlier reason
      | .exhausted => .exhausted := by
  show (p >>= fun a => pure (g a)) s = _
  rw [bind_run]
  cases p s <;> simp [pure_run, ParserOutcome.after]

/-! ## Composition -/

section

variable {R : Nat → α → β → Prop} {S : Nat → γ → δ → Prop} {p : Parser α} {q : Parser β}

theorem Parallel.mono (h : Parallel f n R p q) {j : Nat} (hj : j ≤ n) : Parallel f j R p q :=
  fun s hs => h s (Nat.le_trans hs hj)

theorem Parallel.imp (h : Parallel f n R p q) {R' : Nat → α → β → Prop}
    (hR : ∀ j a b, j ≤ n → R j a b → R' j a b) : Parallel f n R' p q := by
  intro s hs
  obtain ⟨a, b, s', reports, hp, hq, hf, hab⟩ | ⟨s', earlier, reason, hp, hq, hf⟩ := (h s hs).cases
  · rw [hp, hq]
    exact .read hf (hR _ _ _ (Nat.le_trans hf.length_le hs) hab)
  · rw [hp, hq]
    exact .rejected hf

theorem Parallel.pure {a : α} {b : β} (h : ∀ j ≤ n, R j a b) :
    Parallel f n R (pure a : Parser α) (pure b : Parser β) :=
  fun s hs => .read (.refl s) (h _ hs)

/-- What comes second may rely on what came first having used up tokens. -/
theorem Parallel.bind {g : α → Parser γ} {h : β → Parser δ} (hp : Parallel f n R p q)
    (hg : ∀ j a b, j ≤ n → R j a b → Parallel f j S (g a) (h b)) : Parallel f n S (p >>= g) (q >>= h) := by
  intro s hs
  obtain ⟨a, b, s', reports, hp, hq, hf, hab⟩ | ⟨s', earlier, reason, hp, hq, hf⟩ := (hp s hs).cases
  · simp only [bind_run, hp, hq]
    obtain ⟨c, d, s'', later, hp', hq', hf', hcd⟩ | ⟨s'', later, reason, hp', hq', hf'⟩ :=
      (hg _ a b (Nat.le_trans hf.length_le hs) hab s' (Nat.le_refl _)).cases
    · simp only [hp', hq', ParserOutcome.after, ← List.map_append]
      exact .read (hf'.trans hf) hcd
    · simp only [hp', hq', ParserOutcome.after, ← List.map_append]
      exact .rejected (hf'.trans hf)
  · simp only [bind_run, hp, hq]
    exact .rejected hf

theorem Parallel.map {g : α → γ} {h : β → δ} (hp : Parallel f n R p q)
    (hg : ∀ j a b, j ≤ n → R j a b → S j (g a) (h b)) : Parallel f n S (g <$> p) (h <$> q) := by
  intro s hs
  obtain ⟨a, b, s', reports, hp, hq, hf, hab⟩ | ⟨s', earlier, reason, hp, hq, hf⟩ := (hp s hs).cases
  · simp only [map_run, hp, hq]
    exact .read hf (hg _ _ _ (Nat.le_trans hf.length_le hs) hab)
  · simp only [map_run, hp, hq]
    exact .rejected hf

end

/-! ## Single steps -/

abbrev Image (g : α → β) : Nat → α → β → Prop := fun _ a b => b = g a

/-- The second of two results is the image of the first, and fewer than `n` tokens are left. -/
abbrev Shorter (n : Nat) (g : α → β) : Nat → α → β → Prop := fun j a b => j < n ∧ b = g a

theorem Parallel.image {g : α → β} {a : α} {b : β} (h : b = g a) :
    Parallel f n (Image g) (Pure.pure a : Parser α) (Pure.pure b : Parser β) := .pure fun _ _ => h

theorem context_parallel : Parallel f n (Image id) context context := fun s _ => .read (.refl s) rfl

theorem atEnd_parallel : Parallel f n (fun j a b => b = a ∧ (a = true ↔ j = 0)) atEnd atEnd := by
  intro s _
  have hb : (s.renumber f).rest.isEmpty = s.rest.isEmpty := by simp
  have h : atEnd (s.renumber f) = .read s.rest.isEmpty (s.renumber f) [] := by rw [atEnd, hb]
  rw [h]
  exact .read (.refl s) ⟨rfl, by simp⟩

theorem atBodyEnd_parallel : Parallel f n (fun j a b => b = a ∧ (a = false → 0 < j)) atBodyEnd atBodyEnd := by
  intro s _
  have hb : ((s.renumber f).rest.head?.all (·.kind == .rightBrace)) = s.rest.head?.all (·.kind == .rightBrace) := by
    rcases hr : s.rest with _ | ⟨t, rest⟩ <;> simp [hr]
  have h : atBodyEnd (s.renumber f) = .read (s.rest.head?.all (·.kind == .rightBrace)) (s.renumber f) [] := by
    rw [atBodyEnd, hb]
  rw [h]
  refine .read (.refl s) ⟨rfl, fun he => List.length_pos_iff.mpr ?_⟩
  rintro hnil
  simp [hnil] at he

theorem check_parallel (kind : TokenKind) : Parallel f n (Image id) (check kind) (check kind) := by
  intro s _
  have hb : ((s.renumber f).rest.head?.any (·.kind == kind)) = s.rest.head?.any (·.kind == kind) := by
    rcases hr : s.rest with _ | ⟨t, rest⟩ <;> simp [hr]
  have h : check kind (s.renumber f) = .read (s.rest.head?.any (·.kind == kind)) (s.renumber f) [] := by
    rw [check, hb]
  rw [h]
  exact .read (.refl s) rfl

/-- Line numbers are not looked at when a token is chosen. -/
theorem take?_parallel {R : α → β → Prop} {select : Token → Option α} {select' : Token → Option β}
    (h : ∀ t, Option.Rel R (select t) (select' (t.renumber f))) :
    Parallel f n (fun j => Option.Rel fun a b => j < n ∧ R a b) (take? select) (take? select') := by
  intro s hs
  rcases hr : s.rest with _ | ⟨t, rest⟩
  · simp only [take?, ParserState.renumber_rest, hr, List.map_nil]
    exact .read (.refl s) .none
  · have ht := h t
    simp only [take?, ParserState.renumber_rest, hr, List.map_cons]
    rcases hsel : select t with _ | a <;> rcases hsel' : select' (t.renumber f) with _ | b <;>
      rw [hsel, hsel'] at ht <;> cases ht
    · exact .read (.refl s) .none
    · rename_i hab
      refine .read ⟨?_, rfl, rfl⟩ (.some ⟨?_, hab⟩)
      · rw [hr]; exact List.suffix_cons t rest
      · rw [hr] at hs; exact hs

theorem accept?_parallel (kind : TokenKind) :
    Parallel f n (fun j => Option.Rel fun a b => j < n ∧ b = a.renumber f ∧ a.kind = kind)
      (accept? kind) (accept? kind) := by
  refine take?_parallel fun t => ?_
  by_cases h : t.kind = kind
  · simp [h]
  · simp [h]

theorem accept_parallel (kind : TokenKind) :
    Parallel f n (fun j a b => b = a ∧ (a = true → j < n)) (accept kind) (accept kind) := by
  refine (accept?_parallel kind).map ?_
  rintro j a b - (⟨hj, -⟩ | _)
  · exact ⟨rfl, fun _ => hj⟩
  · exact ⟨rfl, by simp⟩

@[simp] theorem faultAt_renumber (t : Token) (fault : SyntaxFault) :
    (faultAt t fault).renumber f = faultAt (t.renumber f) fault := rfl

/-- A fault moves with the line of the token it is found at. -/
theorem faultHere_renumber (fault : SyntaxFault) (s : ParserState) :
    (faultHere fault s).renumber f = faultHere fault (s.renumber f) := by
  rcases hr : s.rest with _ | ⟨t, rest⟩
  · simp only [faultHere, hr, ParserState.renumber_rest, List.map_nil]
    rfl
  · simp only [faultHere, hr, ParserState.renumber_rest, List.map_cons]
    exact faultAt_renumber t fault

theorem reportAt_parallel (t : Token) (fault : SyntaxFault) :
    Parallel f n (fun _ _ _ => True) (reportAt t fault) (reportAt (t.renumber f) fault) :=
  fun s _ => .read (.tallied s) trivial

theorem reportHere_parallel (fault : SyntaxFault) :
    Parallel f n (fun _ _ _ => True) (reportHere fault) (reportHere fault) := by
  intro s _
  have h : Alike f s (fun _ _ _ => True) (reportHere fault s)
      (.read () (s.tallied.renumber f) ([faultHere fault s].map (Report.renumber f))) := .read (.tallied s) trivial
  rwa [List.map_cons, List.map_nil, faultHere_renumber] at h

theorem reject_parallel {R : Nat → α → β → Prop} (fault : SyntaxFault) :
    Parallel f n R (reject fault) (reject fault) := by
  intro s _
  have h : Alike f s R (reject fault s) (.rejected (s.tallied.renumber f) [] ((faultHere fault s).renumber f)) :=
    .rejected (.tallied s)
  rwa [faultHere_renumber] at h

theorem expect_parallel (kind : TokenKind) (fault : SyntaxFault) :
    Parallel f n (Shorter n (Token.renumber f)) (expect kind fault) (expect kind fault) := by
  refine (accept?_parallel kind).bind ?_
  rintro j _ _ - (⟨hj, rfl, -⟩ | _)
  · exact .pure fun i hi => ⟨by omega, rfl⟩
  · exact reject_parallel fault

theorem expectName_parallel (fault : SyntaxFault) :
    Parallel f n (Shorter n (Name.renumber f)) (expectName fault) (expectName fault) := by
  refine (expect_parallel .identifier fault).bind ?_
  rintro j a _ - ⟨hj, rfl⟩
  exact .pure fun i hi => ⟨by omega, rfl⟩

/-- The optional phrase is related as the phrase is, on what is left after the token. -/
theorem after?_parallel {p : Parser α} {q : Parser β} {g : α → β} (kind : TokenKind)
    (h : ∀ j < n, Parallel f j (Image g) p q) :
    Parallel f n (Image (Option.map g)) (after? kind p) (after? kind q) := by
  refine (accept_parallel kind).bind ?_
  rintro j _ b - ⟨rfl, hj⟩
  cases b with
  | true => exact (h j (hj rfl)).map fun _ _ _ _ hab => by rw [hab]; rfl
  | false => exact .pure fun _ _ => rfl

theorem unless?_parallel {p : Parser α} {q : Parser β} {g : α → β} (stop : TokenKind)
    (h : Parallel f n (Image g) p q) : Parallel f n (Image (Option.map g)) (unless? stop p) (unless? stop q) := by
  refine (check_parallel stop).bind ?_
  rintro j _ b hj rfl
  cases b with
  | true => exact .pure fun _ _ => rfl
  | false => exact (h.mono hj).map fun _ _ _ _ hab => by rw [hab]; rfl

theorem limit_parallel (count : Nat) (fault : SyntaxFault) :
    Parallel f n (fun _ _ _ => True) (limit count fault) (limit count fault) := by
  unfold limit
  split
  · exact reportHere_parallel fault
  · exact .pure fun _ _ => trivial

theorem listed_parallel {p : Parser (List α)} {q : Parser (List β)} {g : α → β}
    (h : Parallel f n (Image (List.map g)) p q) : Parallel f n (Image (List.map g)) (listed p) (listed q) := by
  refine (unless?_parallel .rightParen h).map ?_
  rintro j a _ - rfl
  cases a <;> rfl

/-! ## Contexts -/

theorem bracketed_alike {R : Nat → α → β → Prop} {p : Parser α} {q : Parser β} {enter leave : Context → Context}
    {s : ParserState} (hs : s.rest.length ≤ n) (hc : leave (enter s.context) = s.context)
    (h : Parallel f n R p q) : Alike f s R (bracketed enter leave p s) (bracketed enter leave q (s.renumber f)) := by
  obtain ⟨a, b, s', reports, hp, hq, hf, hab⟩ | ⟨s', earlier, reason, hp, hq, hf⟩ :=
    (h { s with context := enter s.context } hs).cases
  · have hctx : leave s'.context = s.context := by rw [← hc]; exact congrArg leave hf.context
    simp only [bracketed, hp, ParserState.renumber_context]
    rw [show q { s.renumber f with context := enter s.context } = _ from hq]
    exact .read ⟨hf.suffix, hf.endLine, hctx⟩ hab
  · have hctx : leave s'.context = s.context := by rw [← hc]; exact congrArg leave hf.context
    simp only [bracketed, hp, ParserState.renumber_context]
    rw [show q { s.renumber f with context := enter s.context } = _ from hq]
    exact .rejected ⟨hf.suffix, hf.endLine, hctx⟩

theorem inFunction_parallel {R : Nat → α → β → Prop} {p : Parser α} {q : Parser β} (kind : FunctionKind)
    (h : Parallel f n R p q) : Parallel f n R (inFunction kind p) (inFunction kind q) :=
  fun _ hs => bracketed_alike hs rfl h

theorem inClass_parallel {R : Nat → α → β → Prop} {p : Parser α} {q : Parser β} (enclosing : EnclosingClass)
    (h : Parallel f n R p q) : Parallel f n R (inClass enclosing p) (inClass enclosing q) := by
  intro s hs
  simp only [inClass, bind_run, context, ParserState.renumber_context, ParserOutcome.after_nil]
  exact bracketed_alike hs rfl h

/-! ## Recovery -/

theorem skipStatement_suffix (ts : List Token) : skipStatement ts <:+ ts := by
  induction ts with
  | nil => exact List.suffix_rfl
  | cons t rest ih =>
    simp only [skipStatement]
    split
    · exact List.suffix_rfl
    · split
      · exact List.suffix_cons t rest
      · exact ih.trans (List.suffix_cons t rest)

theorem skipStatement_renumber (ts : List Token) :
    skipStatement (ts.map (Token.renumber f)) = (skipStatement ts).map (Token.renumber f) := by
  induction ts with
  | nil => rfl
  | cons t rest ih =>
    simp only [List.map_cons, skipStatement, Token.renumber_kind, ih]
    split
    · rfl
    · split <;> rfl

theorem synchronize_suffix (ts : List Token) : synchronize ts <:+ ts.tail := by
  rcases ts with _ | ⟨t, rest⟩
  · exact List.suffix_rfl
  · simp only [synchronize, List.tail_cons]
    split
    · exact List.suffix_rfl
    · exact skipStatement_suffix rest

theorem synchronize_renumber (ts : List Token) :
    synchronize (ts.map (Token.renumber f)) = (synchronize ts).map (Token.renumber f) := by
  rcases ts with _ | ⟨t, rest⟩
  · rfl
  · simp only [List.map_cons, synchronize, Token.renumber_kind, skipStatement_renumber]
    split <;> rfl

/-- A declaration that was skipped has cost a token too, unless there was none. -/
theorem recovering_parallel {p q : Parser Stmt} (h : Parallel f n (Shorter n (Stmt.renumber f)) p q) :
    Parallel f n (fun j a b => (0 < n → j < n) ∧ b = a.map (Stmt.renumber f)) (recovering p) (recovering q) := by
  intro s hs
  obtain ⟨a, _, s', reports, hp, hq, hf, hj, rfl⟩ | ⟨s', earlier, reason, hp, hq, hf⟩ := (h s hs).cases
  · simp only [recovering, hp, hq]
    exact .read hf ⟨fun _ => hj, rfl⟩
  · have hlen : (synchronize s'.rest).length ≤ s'.rest.length - 1 := by
      simpa using (synchronize_suffix s'.rest).length_le
    have hle := hf.length_le
    have hrun : Alike f s (fun j a b => (0 < n → j < n) ∧ b = a.map (Stmt.renumber f))
        (.read none { s' with rest := synchronize s'.rest } (earlier ++ [reason]))
        (.read none (ParserState.renumber f { s' with rest := synchronize s'.rest })
          ((earlier ++ [reason]).map (Report.renumber f))) :=
      .read ⟨((synchronize_suffix _).trans (List.tail_suffix _)).trans hf.suffix, hf.endLine, hf.context⟩
        ⟨fun hn => by simp only; omega, rfl⟩
    simp only [recovering, hp, hq, ParserState.renumber_rest, synchronize_renumber]
    rwa [List.map_append] at hrun

end Parser

end Lox
