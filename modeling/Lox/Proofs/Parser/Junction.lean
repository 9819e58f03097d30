/-
  Lox.Proofs.Parser.Junction — a text and the same text with more behind it. The first ends
  a statement, and what follows starts one. A parser on the longer text then does what it
  does on the text alone, as long as that makes no report at its end. If it does make one,
  the longer text comes to grief behind the junction: a token there is reported, or
  everything to the end is skipped with the phrase that was being read (`Junction.Alike`).

  The relation goes through the ways to build a parser, with one exception. Statements read
  up to a closing brace stop at the end of a text without a report, which comes right
  after; so such a body is taken together with its brace (`Follows.body`).
-/

import Lox.Proofs.Parser.Reports

namespace Lox

def Report.Among (tokens : List Token) (r : Report) : Prop :=
  ∃ t ∈ tokens, r.line = t.line ∧ r.place = .atLexeme t.lexeme

namespace Parser

def closesStatement : TokenKind → Bool
  | .semicolon | .rightBrace => true
  | _ => false

/-- The tokens of a text that ends a statement, and those of another one that starts one. -/
structure Junction where
  tokens : List Token
  more : List Token
  /-- The line on which the longer text ends. -/
  endLine : Nat
  closed : ∀ t, tokens.getLast? = some t → closesStatement t.kind = true
  starts : ∃ t rest, more = t :: rest ∧ startsStatement t.kind = true

namespace Junction

variable (j : Junction)

def extend (s : ParserState) : ParserState := { s with rest := s.rest ++ j.more, endLine := j.endLine }

@[simp] theorem extend_rest (s : ParserState) : (j.extend s).rest = s.rest ++ j.more := rfl
@[simp] theorem extend_context (s : ParserState) : (j.extend s).context = s.context := rfl

/-- There is a report at the end of the text. -/
def Ended {α : Type} (out : ParserOutcome α) : Prop := ∃ r ∈ out.reports, r.place = .atEnd

/-- There is a report behind the junction. -/
def Struck {α : Type} (out : ParserOutcome α) : Prop := ∃ r ∈ out.reports, r.Among j.more

/-- The outcomes on the text alone and on the longer one. If `ready`, tokens are left of the
text alone. -/
inductive Alike {α : Type} (ready : Bool) : ParserOutcome α → ParserOutcome α → Prop
  | exhausted {out : ParserOutcome α} : Alike ready .exhausted out
  | exhausted' {out : ParserOutcome α} : Alike ready out .exhausted
  | read {a : α} {s : ParserState} {reports : List Report} :
      s.rest <:+ j.tokens → (ready = true → s.rest ≠ []) → (∀ r ∈ reports, r.Among j.tokens) →
      Alike ready (.read a s reports) (.read a (j.extend s) reports)
  | rejected {s : ParserState} {earlier : List Report} {reason : Report} :
      s.rest <:+ j.tokens → s.rest ≠ [] → (∀ r ∈ earlier ++ [reason], r.Among j.tokens) →
      Alike ready (.rejected s earlier reason) (.rejected (j.extend s) earlier reason)
  /-- Both are at odds, the one at the end of the text and the other behind the junction. -/
  | struck {out out' : ParserOutcome α} : Ended out → j.Struck out' → Alike ready out out'
  /-- Both have given up, and nothing is left. -/
  | drained {s s' : ParserState} {earlier earlier' : List Report} {reason reason' : Report} :
      s.rest = [] → s'.rest = [] → Ended (.rejected s earlier reason : ParserOutcome α) →
      Alike ready (.rejected s earlier reason) (.rejected s' earlier' reason')

/-- `q` on the longer text follows `p` on the text alone, from every state in the text or, if
`start`, from every one that is not its end. -/
def Follows {α : Type} (start ready : Bool) (p q : Parser α) : Prop :=
  ∀ s : ParserState, s.rest <:+ j.tokens → (start = true → s.rest ≠ []) → j.Alike ready (p s) (q (j.extend s))

variable {j} {α β : Type} {start ready ready' : Bool} {p q : Parser α} {s s' : ParserState}

/-- Only the end of a statement can be the last token. -/
theorem rest_ne_nil {t : Token} {rest : List Token} (h : t :: rest <:+ j.tokens) (ht : closesStatement t.kind = false) :
    rest ≠ [] := by
  intro hnil
  obtain ⟨before, hb⟩ := h
  have hlast := j.closed t (by rw [← hb, hnil, List.getLast?_append]; rfl)
  rw [ht] at hlast
  cases hlast

/-! ## Composition -/

theorem Alike.unready {out out' : ParserOutcome α} (h : j.Alike ready out out') : j.Alike false out out' := by
  cases h with
  | exhausted => exact .exhausted
  | exhausted' => exact .exhausted'
  | read hs _ hr => exact .read hs nofun hr
  | rejected hs hne hr => exact .rejected hs hne hr
  | struck h h' => exact .struck h h'
  | drained h h' he => exact .drained h h' he

theorem Follows.unready (h : j.Follows start ready p q) : j.Follows start false p q :=
  fun s hs hne => (h s hs hne).unready

theorem Follows.anywhere (h : j.Follows false ready p q) : j.Follows start ready p q :=
  fun s hs _ => h s hs nofun

theorem mem_reports_after {reports : List Report} {out : ParserOutcome α} {r : Report} (hout : out ≠ .exhausted)
    (h : r ∈ reports ∨ r ∈ out.reports) : r ∈ (out.after reports).reports := by
  rcases out with ⟨a, s, later⟩ | ⟨s, later, reason⟩ | _
  · exact List.mem_append.mpr h
  · simp only [ParserOutcome.after, ParserOutcome.reports, List.append_assoc]
    exact List.mem_append.mpr h
  · exact absurd rfl hout

theorem after_eq_exhausted {reports : List Report} {out : ParserOutcome α} :
    out.after reports = .exhausted ↔ out = .exhausted := by
  cases out <;> simp [ParserOutcome.after]

/-- A report stays, unless the run is abandoned. -/
theorem bind_reports {g : α → Parser β} {r : Report} (h : r ∈ (p s).reports) :
    (p >>= g) s = .exhausted ∨ r ∈ ((p >>= g) s).reports := by
  rw [bind_run]
  rcases hp : p s with ⟨a, s', reports⟩ | ⟨s', earlier, reason⟩ | _
  · rw [hp] at h
    by_cases hout : g a s' = .exhausted
    · exact .inl (after_eq_exhausted.mpr hout)
    · exact .inr (mem_reports_after hout (.inl h))
  · rw [hp] at h
    exact .inr h
  · exact .inl rfl

theorem Alike.of_struck {t : ParserState} {g g' : α → Parser β} (h : Ended (p s)) (h' : j.Struck (q t)) :
    j.Alike ready ((p >>= g) s) ((q >>= g') t) := by
  obtain ⟨r, hr, hend⟩ := h
  obtain ⟨r', hr', hmore⟩ := h'
  rcases bind_reports (g := g) hr with hout | hr
  · rw [hout]
    exact .exhausted
  rcases bind_reports (g := g') hr' with hout | hr'
  · rw [hout]
    exact .exhausted'
  exact .struck ⟨r, hr, hend⟩ ⟨r', hr', hmore⟩

/-- Both read the same, or it does not matter what comes next. -/
theorem Alike.cases {t : ParserState} (h : j.Alike ready (p s) (q t)) :
    (∃ a s' reports, p s = .read a s' reports ∧ q t = .read a (j.extend s') reports ∧ s'.rest <:+ j.tokens ∧
      (ready = true → s'.rest ≠ []) ∧ ∀ r ∈ reports, r.Among j.tokens) ∨
    ∀ {γ : Type} (b : Bool) (g g' : α → Parser γ), j.Alike b ((p >>= g) s) ((q >>= g') t) := by
  generalize hp : p s = out at h
  generalize hq : q t = out' at h
  cases h with
  | read hs hne hr => exact .inl ⟨_, _, _, rfl, rfl, hs, hne, hr⟩
  | exhausted =>
    right
    intro γ b g g'
    rw [bind_exhausted hp]
    exact .exhausted
  | exhausted' =>
    right
    intro γ b g g'
    rw [bind_exhausted hq]
    exact .exhausted'
  | rejected hs hne hr =>
    right
    intro γ b g g'
    rw [bind_run, bind_run, hp, hq]
    exact .rejected hs hne hr
  | struck h h' =>
    right
    intro γ b g g'
    exact .of_struck (hp ▸ h) (hq ▸ h')
  | drained h h' he =>
    right
    intro γ b g g'
    rw [bind_run, bind_run, hp, hq]
    exact .drained h h' he

theorem Alike.after {reports : List Report} {out out' : ParserOutcome α} (h : j.Alike ready out out')
    (hr : ∀ r ∈ reports, r.Among j.tokens) : j.Alike ready (out.after reports) (out'.after reports) := by
  have hmem : ∀ later : List Report, (∀ r ∈ later, r.Among j.tokens) → ∀ r ∈ reports ++ later, r.Among j.tokens :=
    fun later hl r hr' => (List.mem_append.mp hr').elim (hr r) (hl r)
  cases h with
  | exhausted => exact .exhausted
  | exhausted' => exact .exhausted'
  | read hs hne hl => exact .read hs hne (hmem _ hl)
  | rejected hs hne hl =>
    refine .rejected hs hne ?_
    rw [List.append_assoc]
    exact hmem _ hl
  | struck h h' =>
    by_cases hout : out = .exhausted
    · rw [hout]
      exact .exhausted
    by_cases hout' : out' = .exhausted
    · rw [hout']
      exact .exhausted'
    obtain ⟨r, hr, hend⟩ := h
    obtain ⟨r', hr', hmore⟩ := h'
    exact .struck ⟨r, mem_reports_after hout (.inr hr), hend⟩ ⟨r', mem_reports_after hout' (.inr hr'), hmore⟩
  | @drained s _ earlier _ reason _ h h' he =>
    obtain ⟨r, hr, hend⟩ := he
    have hmem : r ∈ ((ParserOutcome.rejected s earlier reason : ParserOutcome α).after reports).reports :=
      mem_reports_after nofun (.inr hr)
    exact .drained h h' ⟨r, hmem, hend⟩

theorem Alike.bind {g g' : α → Parser β} {mid : Bool} {t : ParserState} (h : j.Alike mid (p s) (q t))
    (hg : ∀ a, j.Follows mid ready (g a) (g' a)) : j.Alike ready ((p >>= g) s) ((q >>= g') t) := by
  obtain ⟨a, s', reports, hp, hq, hs', hne', hr⟩ | hany := h.cases
  · rw [bind_read hp, bind_read hq]
    exact (hg a s' hs' hne').after hr
  · exact hany ready g g'

/-- The second phrase starts where the first is ready to stop. -/
theorem Follows.bind {g g' : α → Parser β} {mid : Bool} (hp : j.Follows start mid p q)
    (hg : ∀ a, j.Follows mid ready (g a) (g' a)) : j.Follows start ready (p >>= g) (q >>= g') :=
  fun s hs hne => (hp s hs hne).bind hg

theorem Follows.pure (a : α) : j.Follows start start (pure a) (pure a) :=
  fun _ hs hne => .read hs hne (List.forall_mem_nil _)

theorem Follows.map (f : α → β) (hp : j.Follows start ready p q) : j.Follows start ready (f <$> p) (f <$> q) :=
  hp.bind fun a => .pure (f a)

theorem Follows.exhausted : j.Follows start ready (exhausted : Parser α) q := fun _ _ _ => .exhausted

/-! ## Single steps -/

/-- In the longer text something other than the end of the text alone comes next. -/
theorem next_of_end (h : s.rest = []) :
    ∃ t rest, (j.extend s).rest = t :: rest ∧ t ∈ j.more ∧ startsStatement t.kind = true := by
  obtain ⟨t, rest, hmore, ht⟩ := j.starts
  refine ⟨t, rest, ?_, ?_, ht⟩
  · rw [extend_rest, h, List.nil_append, hmore]
  · rw [hmore]
    exact List.mem_cons_self

theorem faultHere_among {t : Token} {rest : List Token} {tokens : List Token} (fault : SyntaxFault)
    (h : s.rest = t :: rest) (ht : t ∈ tokens) : (faultHere fault s).Among tokens := by
  unfold faultHere
  rw [h]
  exact ⟨t, ht, rfl, rfl⟩

theorem faultHere_ended (fault : SyntaxFault) (h : s.rest = []) : (faultHere fault s).place = .atEnd := by
  unfold faultHere
  rw [h]

/-- As long as tokens are left, more of them behind change no fault. -/
theorem faultHere_extend (fault : SyntaxFault) (h : s.rest ≠ []) : faultHere fault (j.extend s) = faultHere fault s := by
  unfold faultHere
  rw [extend_rest]
  rcases hr : s.rest with _ | ⟨t, rest⟩
  · exact absurd hr h
  · rfl

/-- A fault here is at the end of the text alone, or before the junction in both. -/
theorem faultHere_cases (fault : SyntaxFault) (hs : s.rest <:+ j.tokens) :
    (s.rest = [] ∧ (faultHere fault s).place = .atEnd ∧ (faultHere fault (j.extend s)).Among j.more) ∨
    (s.rest ≠ [] ∧ faultHere fault (j.extend s) = faultHere fault s ∧ (faultHere fault s).Among j.tokens) := by
  rcases hr : s.rest with _ | ⟨t, rest⟩
  · obtain ⟨t, rest, hnext, ht, -⟩ := next_of_end (j := j) hr
    exact .inl ⟨rfl, faultHere_ended fault hr, faultHere_among fault hnext ht⟩
  · refine .inr ⟨List.cons_ne_nil _ _, faultHere_extend fault (by rw [hr]; exact List.cons_ne_nil _ _), ?_⟩
    exact faultHere_among fault hr (hs.subset (by rw [hr]; exact List.mem_cons_self))

theorem Follows.reject (fault : SyntaxFault) : j.Follows start ready (reject fault : Parser α) (reject fault) := by
  intro s hs _
  unfold Parser.reject
  obtain ⟨_, hend, hmore⟩ | ⟨hne, heq, hin⟩ := faultHere_cases (j := j) fault hs
  · exact .struck ⟨_, List.mem_singleton_self _, hend⟩ ⟨_, List.mem_singleton_self _, hmore⟩
  · rw [heq]
    exact .rejected hs hne (List.forall_mem_singleton.mpr hin)

theorem Follows.reportHere (fault : SyntaxFault) : j.Follows start start (reportHere fault) (reportHere fault) := by
  intro s hs hne
  unfold Parser.reportHere
  obtain ⟨_, hend, hmore⟩ | ⟨_, heq, hin⟩ := faultHere_cases (j := j) fault hs
  · exact .struck ⟨_, List.mem_singleton_self _, hend⟩ ⟨_, List.mem_singleton_self _, hmore⟩
  · rw [heq]
    exact .read hs hne (List.forall_mem_singleton.mpr hin)

theorem Follows.reportAt {t : Token} (ht : t ∈ j.tokens) (fault : SyntaxFault) :
    j.Follows start start (reportAt t fault) (reportAt t fault) :=
  fun _ hs hne => .read hs hne (List.forall_mem_singleton.mpr ⟨t, ht, rfl, rfl⟩)

theorem Follows.limit (count : Nat) (fault : SyntaxFault) :
    j.Follows start start (limit count fault) (limit count fault) := by
  unfold Parser.limit
  split
  · exact .reportHere fault
  · exact .pure ()

theorem Follows.context {g g' : Context → Parser α} (h : ∀ c, j.Follows start ready (g c) (g' c)) :
    j.Follows start ready (context >>= g) (context >>= g') :=
  Follows.bind (fun _ hs hne => .read hs hne (List.forall_mem_nil _)) h

/-- A token decides how to go on. At the end of the text alone none is taken, and nothing that
starts a statement is in the longer text. -/
theorem Follows.take? {γ δ : Type} {select : Token → Option γ} {select' : Token → Option δ} {g : Option γ → Parser α}
    {g' : Option δ → Parser α} (hsame : ∀ t, (select t).isSome = (select' t).isSome)
    (hstarts : start = true ∨ ∀ t, startsStatement t.kind = true → select' t = none)
    (hsome : ∀ t ∈ j.tokens, ∀ a b, select t = some a → select' t = some b →
      j.Follows (!closesStatement t.kind) ready (g (some a)) (g' (some b)))
    (hnone : j.Follows start ready (g none) (g' none)) :
    j.Follows start ready (take? select >>= g) (take? select' >>= g') := by
  intro s hs hne
  rcases hr : s.rest with _ | ⟨t, rest⟩
  · have htake : Parser.take? select s = .read none s [] := by simp only [Parser.take?, hr]
    obtain ⟨t, rest, hnext, -, ht⟩ := next_of_end (j := j) hr
    have htake' : Parser.take? select' (j.extend s) = .read none (j.extend s) [] := by
      have hselect : select' t = none := by
        rcases hstarts with hstart | hstarts
        · exact absurd hr (hne hstart)
        · exact hstarts t ht
      simp only [Parser.take?, hnext, hselect]
    rw [bind_read htake, bind_read htake', ParserOutcome.after_nil, ParserOutcome.after_nil]
    exact hnone s hs hne
  · have hrest : (j.extend s).rest = t :: (rest ++ j.more) := by rw [extend_rest, hr, List.cons_append]
    have hmem : t ∈ j.tokens := hs.subset (by rw [hr]; exact List.mem_cons_self)
    have hst := hsame t
    cases hselect : select t with
    | none =>
      have hselect' : select' t = none := by rw [hselect] at hst; exact Option.isNone_iff_eq_none.mp (by simpa using hst.symm)
      have htake : Parser.take? select s = .read none s [] := by simp only [Parser.take?, hr, hselect]
      have htake' : Parser.take? select' (j.extend s) = .read none (j.extend s) [] := by
        simp only [Parser.take?, hrest, hselect']
      rw [bind_read htake, bind_read htake', ParserOutcome.after_nil, ParserOutcome.after_nil]
      exact hnone s hs hne
    | some a =>
      obtain ⟨b, hselect'⟩ : ∃ b, select' t = some b := Option.isSome_iff_exists.mp (by rw [← hst, hselect]; rfl)
      have htake : Parser.take? select s = .read (some a) { s with rest } [] := by simp only [Parser.take?, hr, hselect]
      have htake' : Parser.take? select' (j.extend s) = .read (some b) (j.extend { s with rest }) [] := by
        simp only [Parser.take?, hrest, hselect']
        rfl
      rw [bind_read htake, bind_read htake', ParserOutcome.after_nil, ParserOutcome.after_nil]
      rw [hr] at hs
      refine hsome t hmem a b hselect hselect' { s with rest } ((List.suffix_cons t rest).trans hs) fun hclosed => ?_
      exact rest_ne_nil hs (by simpa using hclosed)

/-- What is taken does not depend on the text. -/
theorem Follows.select {γ : Type} {select : Token → Option γ} {g g' : Option γ → Parser α}
    (hstarts : start = true ∨ ∀ t, startsStatement t.kind = true → select t = none)
    (hsome : ∀ t ∈ j.tokens, ∀ a, select t = some a →
      j.Follows (!closesStatement t.kind) ready (g (some a)) (g' (some a)))
    (hnone : j.Follows start ready (g none) (g' none)) :
    j.Follows start ready (Parser.take? select >>= g) (Parser.take? select >>= g') :=
  .take? (fun _ => rfl) hstarts (fun t ht a b ha hb => by cases ha.symm.trans hb; exact hsome t ht a ha) hnone

theorem Follows.accept? {kind : TokenKind} {g g' : Option Token → Parser α}
    (hkind : start = true ∨ startsStatement kind = false)
    (hsome : ∀ t ∈ j.tokens, j.Follows (!closesStatement kind) ready (g (some t)) (g' (some t)))
    (hnone : j.Follows start ready (g none) (g' none)) :
    j.Follows start ready (Parser.accept? kind >>= g) (Parser.accept? kind >>= g') := by
  refine .select (hkind.imp_right fun hkind t ht => ?_) ?_ hnone
  · rw [if_neg]
    rintro rfl
    cases hkind.symm.trans ht
  · intro t ht a ha
    obtain ⟨rfl, rfl⟩ : t.kind = kind ∧ t = a := by simpa using ha
    exact hsome t ht

theorem Follows.accept {kind : TokenKind} {g g' : Bool → Parser α} (hkind : start = true ∨ startsStatement kind = false)
    (htrue : j.Follows (!closesStatement kind) ready (g true) (g' true))
    (hfalse : j.Follows start ready (g false) (g' false)) :
    j.Follows start ready (Parser.accept kind >>= g) (Parser.accept kind >>= g') := by
  have hrun : ∀ (g : Bool → Parser α) (s : ParserState),
      (Parser.accept kind >>= g) s = (Parser.accept? kind >>= fun o => g o.isSome) s := by
    intro g s
    unfold Parser.accept
    rw [bind_run, map_run, bind_run]
    cases Parser.accept? kind s <;> rfl
  intro s hs hne
  rw [hrun, hrun]
  exact Follows.accept? hkind (fun _ _ => htrue) hfalse s hs hne

theorem Follows.expect {kind : TokenKind} (fault : SyntaxFault) {g g' : Token → Parser α}
    (hkind : startsStatement kind = false)
    (h : ∀ t ∈ j.tokens, j.Follows (!closesStatement kind) ready (g t) (g' t)) :
    j.Follows start ready (Parser.expect kind fault >>= g) (Parser.expect kind fault >>= g') := by
  have hrun : ∀ (g : Token → Parser α) (s : ParserState),
      (Parser.expect kind fault >>= g) s = (Parser.accept? kind >>= fun o => o.elim (Parser.reject fault) g) s := by
    intro g s
    unfold Parser.expect
    rw [bind_run, bind_run, bind_run]
    rcases Parser.accept? kind s with ⟨_ | t, s', reports⟩ | _ | _
    · rfl
    · simp only [pure_run, ParserOutcome.after, List.append_nil, Option.elim_some]
    · rfl
    · rfl
  intro s hs hne
  rw [hrun, hrun]
  exact Follows.accept? (.inr hkind) h (.reject fault) s hs hne

theorem Follows.expectName (fault : SyntaxFault) {g g' : Name → Parser α} (h : ∀ n, j.Follows true ready (g n) (g' n)) :
    j.Follows start ready (Parser.expectName fault >>= g) (Parser.expectName fault >>= g') := by
  have hname : j.Follows start true (Parser.expectName fault) (Parser.expectName fault) :=
    .expect fault rfl fun t _ => .pure _
  exact hname.bind h

theorem Follows.after? {kind : TokenKind} (hkind : startsStatement kind = false)
    (h : j.Follows (!closesStatement kind) ready p q) : j.Follows false false (Parser.after? kind p) (Parser.after? kind q) :=
  .accept (.inr hkind) (h.map some).unready (.pure none)

theorem Follows.unless? {stop : TokenKind} (hstop : startsStatement stop = false) (h : j.Follows start start p q) :
    j.Follows start start (Parser.unless? stop p) (Parser.unless? stop q) := by
  intro s hs hne
  have hcheck : check stop (j.extend s) = .read (s.rest.head?.any (·.kind == stop)) (j.extend s) [] := by
    unfold Parser.check
    rcases hr : s.rest with _ | ⟨t, rest⟩
    · obtain ⟨t, rest, hnext, -, ht⟩ := next_of_end (j := j) hr
      have hkind : (t.kind == stop) = false := beq_false_of_ne fun heq => by
        rw [heq, hstop] at ht
        cases ht
      rw [hnext, List.head?_cons, Option.any_some, hkind]
      rfl
    · rw [extend_rest, hr]
      rfl
  have hcheck' : check stop s = .read (s.rest.head?.any (·.kind == stop)) s [] := rfl
  unfold Parser.unless?
  rw [bind_read hcheck, bind_read hcheck', ParserOutcome.after_nil, ParserOutcome.after_nil]
  split
  · exact Follows.pure none s hs hne
  · exact h.map some s hs hne

theorem Follows.listed {p q : Parser (List α)} (h : j.Follows start start p q) :
    j.Follows start start (Parser.listed p) (Parser.listed q) :=
  (h.unless? rfl).map _

/-! ## Contexts -/

def leaving (leave : Context → Context) : ParserOutcome α → ParserOutcome α
  | .read a s reports => .read a { s with context := leave s.context } reports
  | .rejected s earlier reason => .rejected { s with context := leave s.context } earlier reason
  | .exhausted => .exhausted

theorem leaving_reports (leave : Context → Context) (out : ParserOutcome α) :
    (leaving leave out).reports = out.reports := by
  cases out <;> rfl

theorem Alike.leaving {out out' : ParserOutcome α} (leave : Context → Context) (h : j.Alike ready out out') :
    j.Alike ready (leaving leave out) (leaving leave out') := by
  cases h with
  | exhausted => exact .exhausted
  | exhausted' => exact .exhausted'
  | @read a s reports hs hne hr => exact Alike.read (s := { s with context := leave s.context }) hs hne hr
  | @rejected s earlier reason hs hne hr => exact Alike.rejected (s := { s with context := leave s.context }) hs hne hr
  | struck h h' =>
    obtain ⟨r, hr, hend⟩ := h
    obtain ⟨r', hr', hmore⟩ := h'
    exact .struck ⟨r, by rwa [leaving_reports], hend⟩ ⟨r', by rwa [leaving_reports], hmore⟩
  | drained h h' he => exact .drained h h' he

theorem Follows.bracketed {enter leave : Context → Context} (h : j.Follows start ready p q) :
    j.Follows start ready (Parser.bracketed enter leave p) (Parser.bracketed enter leave q) := by
  have hrun : ∀ (p : Parser α) (s : ParserState),
      Parser.bracketed enter leave p s = Junction.leaving leave (p { s with context := enter s.context }) := by
    intro p s
    unfold Parser.bracketed
    cases p { s with context := enter s.context } <;> rfl
  intro s hs hne
  rw [hrun, hrun]
  exact (h { s with context := enter s.context } hs hne).leaving leave

theorem Follows.inFunction (kind : FunctionKind) (h : j.Follows start ready p q) :
    j.Follows start ready (Parser.inFunction kind p) (Parser.inFunction kind q) := h.bracketed

theorem Follows.inClass (enclosing : EnclosingClass) (h : j.Follows start ready p q) :
    j.Follows start ready (Parser.inClass enclosing p) (Parser.inClass enclosing q) := .context fun _ => h.bracketed

/-! ## Recovery -/

/-- Skipping stops at the latest where the tokens behind begin. -/
theorem skipStatement_append (tokens : List Token) : skipStatement (tokens ++ j.more) = skipStatement tokens ++ j.more := by
  induction tokens with
  | nil =>
    obtain ⟨t, rest, hmore, ht⟩ := j.starts
    rw [hmore]
    exact if_pos ht
  | cons t tokens ih =>
    simp only [List.cons_append, skipStatement]
    split
    · rfl
    · split
      · rfl
      · exact ih

/-- Skipping goes no further than the junction. -/
theorem synchronize_append {tokens : List Token} (h : tokens ≠ []) :
    synchronize (tokens ++ j.more) = synchronize tokens ++ j.more := by
  cases tokens with
  | nil => exact absurd rfl h
  | cons t tokens =>
    simp only [List.cons_append, synchronize, skipStatement_append]
    split <;> rfl

/-- Both have recovered from a fault, and nothing is left. -/
def Spent (out out' : ParserOutcome α) : Prop :=
  ∃ a s s' reports reports', out = .read a s reports ∧ out' = .read a s' reports' ∧ s.rest = [] ∧ s'.rest = [] ∧
    Ended out

theorem Follows.recovering {p q : Parser Stmt} (h : j.Follows true false p q) (hs : s.rest <:+ j.tokens)
    (hne : s.rest ≠ []) :
    j.Alike false (Parser.recovering p s) (Parser.recovering q (j.extend s)) ∨
      Spent (Parser.recovering p s) (Parser.recovering q (j.extend s)) := by
  have hreports : ∀ (p : Parser Stmt) (s : ParserState), (Parser.recovering p s).reports = (p s).reports := by
    intro p s
    unfold Parser.recovering
    cases p s <;> rfl
  have h := h s hs fun _ => hne
  generalize hp : p s = out at h
  generalize hq : q (j.extend s) = out' at h
  have hout := hreports p s
  have hout' := hreports q (j.extend s)
  rw [hp] at hout
  rw [hq] at hout'
  cases h with
  | exhausted =>
    refine .inl ?_
    rw [Parser.recovering, hp]
    exact .exhausted
  | exhausted' =>
    refine .inl ?_
    rw [Parser.recovering.eq_def q, hq]
    exact .exhausted'
  | read hs' hne' hr =>
    refine .inl ?_
    rw [Parser.recovering, Parser.recovering, hp, hq]
    exact .read hs' (fun h => absurd h Bool.false_ne_true) hr
  | @rejected s' earlier reason hs' hne' hr =>
    refine .inl ?_
    rw [Parser.recovering, Parser.recovering, hp, hq]
    have hrest : (j.extend s').rest = s'.rest ++ j.more := rfl
    simp only [hrest, synchronize_append hne']
    exact Alike.read (s := { s' with rest := synchronize s'.rest })
      (((synchronize_suffix _).trans (List.tail_suffix _)).trans hs') (fun h => absurd h Bool.false_ne_true) hr
  | struck h h' =>
    obtain ⟨r, hr, hend⟩ := h
    obtain ⟨r', hr', hmore⟩ := h'
    exact .inl (.struck ⟨r, by rwa [hout], hend⟩ ⟨r', by rwa [hout'], hmore⟩)
  | drained h h' he =>
    refine .inr ⟨_, _, _, _, _, by rw [Parser.recovering, hp], by rw [Parser.recovering, hq], ?_, ?_, ?_⟩
    · simp only [h]
      rfl
    · simp only [h']
      rfl
    · obtain ⟨r, hr, hend⟩ := he
      exact ⟨r, by rwa [hout], hend⟩

/-! ## Bodies -/

/-- The body has come to the end of the text alone, which is not reported yet. On the longer
text it is in trouble, or has come to the end as well. -/
def Stranded (j : Junction) (out out' : ParserOutcome α) : Prop :=
  ∃ a s reports, out = .read a s reports ∧ s.rest = [] ∧
    (j.Struck out' ∨ ∃ b s' reports', out' = .read b s' reports' ∧ s'.rest = [])

/-- The parsers `L n` read at most `n` phrases up to a closing brace or the end. -/
structure Repeats (phrase : Parser α) (put : α → List β → List β) (L : Nat → Parser (List β)) : Prop where
  zero : L 0 = Parser.exhausted
  succ : ∀ n, L (n + 1) = do
    if ← atBodyEnd then
      return []
    else
      let a ← phrase
      return put a (← L n)

section

variable {phrase phrase' : Parser α} {put : α → List β → List β} {L L' : Nat → Parser (List β)} {n : Nat}

theorem Repeats.stop (h : Repeats phrase put L) (hs : s.rest.head?.all (·.kind == .rightBrace) = true) :
    L (n + 1) s = .read [] s [] := by
  have hend : atBodyEnd s = .read true s [] := by rw [atBodyEnd, hs]
  rw [h.succ, bind_read hend, ParserOutcome.after_nil]
  rfl

theorem Repeats.cons (h : Repeats phrase put L) (hs : s.rest.head?.all (·.kind == .rightBrace) = false) :
    L (n + 1) s = (phrase >>= fun a => put a <$> L n) s := by
  have hend : atBodyEnd s = .read false s [] := by rw [atBodyEnd, hs]
  rw [h.succ, bind_read hend, ParserOutcome.after_nil]
  rfl

theorem map_reports (f : α → β) (p : Parser α) (s : ParserState) : ((f <$> p) s).reports = (p s).reports := by
  rw [map_run]
  cases p s <;> rfl

theorem Stranded.prepend (f : α → β) (reports reports' : List Report) (h : j.Stranded (p s) (q s')) :
    j.Stranded (((f <$> p) s).after reports) (((f <$> q) s').after reports') := by
  obtain ⟨a, s₁, later, hp, hend, hother⟩ := h
  refine ⟨f a, s₁, reports ++ later, by rw [map_run, hp]; rfl, hend, ?_⟩
  rcases hother with ⟨r, hr, hmore⟩ | ⟨b, s₂, later', hq, hend'⟩
  · rw [← map_reports f] at hr
    have hout : (f <$> q) s' ≠ .exhausted := by
      intro hout
      rw [hout] at hr
      cases hr
    exact .inl ⟨r, mem_reports_after hout (.inr hr), hmore⟩
  · exact .inr ⟨f b, s₂, reports' ++ later', by rw [map_run, hq]; rfl, hend'⟩

/-- A body is read in the same way, or is stranded. `k` more turns are enough to get to the
end of the longer text, or to a fault in it. -/
theorem Repeats.follows (h : Repeats phrase put L) (h' : Repeats phrase' put L') {k : Nat}
    (hphrase : ∀ s : ParserState, s.rest <:+ j.tokens → s.rest ≠ [] →
      j.Alike false (phrase s) (phrase' (j.extend s)) ∨ Spent (phrase s) (phrase' (j.extend s)))
    (hend : ∀ (n : Nat) (s : ParserState), k < n → s.rest = [] →
      j.Struck (L' n (j.extend s)) ∨ ∃ b s' reports, L' n (j.extend s) = .read b s' reports ∧ s'.rest = [])
    (n : Nat) {s : ParserState} (hs : s.rest <:+ j.tokens) :
    j.Alike true (L n s) (L' (n + k) (j.extend s)) ∨ j.Stranded (L n s) (L' (n + k) (j.extend s)) := by
  induction n generalizing s with
  | zero =>
    rw [h.zero]
    exact .inl .exhausted
  | succ n ih =>
    rw [Nat.add_right_comm]
    rcases hr : s.rest with _ | ⟨t, rest⟩
    · exact .inr ⟨[], s, [], h.stop (by rw [hr]; rfl), hr, hend _ s (by omega) hr⟩
    have hne : s.rest ≠ [] := by rw [hr]; exact List.cons_ne_nil _ _
    have hhead : (j.extend s).rest.head? = s.rest.head? := by rw [extend_rest, hr]; rfl
    by_cases hbrace : t.kind = .rightBrace
    · have hstop : s.rest.head?.all (·.kind == .rightBrace) = true := by simp [hr, hbrace]
      rw [h.stop hstop, h'.stop (by rw [hhead]; exact hstop)]
      exact .inl (.read hs (fun _ => hne) (List.forall_mem_nil _))
    have hgo : s.rest.head?.all (·.kind == .rightBrace) = false := by simp [hr, hbrace]
    rw [h.cons hgo, h'.cons (by rw [hhead]; exact hgo)]
    rcases hphrase s hs hne with hread | ⟨a, s₁, s₂, reports, reports', hp, hq, hend₁, hend₂, -⟩
    · obtain ⟨a, s', reports, hp, hq, hs', -, hreports⟩ | hany := hread.cases
      · rw [bind_read hp, bind_read hq]
        rcases ih hs' with hrest | hrest
        · exact .inl (Alike.after (Alike.bind hrest fun _ => Follows.pure _) hreports)
        · exact .inr (hrest.prepend (put a) reports reports)
      · exact .inl (hany true _ _)
    · rw [bind_read hp, bind_read hq]
      cases n with
      | zero =>
        rw [h.zero]
        exact .inl .exhausted
      | succ n =>
        have hstop : L (n + 1) s₁ = .read [] s₁ [] := h.stop (by rw [hend₁]; rfl)
        have hstop' : L' (n + 1 + k) s₂ = .read [] s₂ [] := by
          rw [Nat.add_right_comm]
          exact h'.stop (by rw [hend₂]; rfl)
        have hstranded : j.Stranded (L (n + 1) s₁) (L' (n + 1 + k) s₂) :=
          ⟨[], s₁, [], hstop, hend₁, .inr ⟨[], s₂, [], hstop', hend₂⟩⟩
        exact .inr (hstranded.prepend (put a) reports reports')

end

theorem expect_end {kind : TokenKind} (fault : SyntaxFault) (g : Token → Parser β) (h : s.rest = []) :
    (expect kind fault >>= g) s = .rejected s.tallied [] (faultHere fault s) := by
  have haccept : Parser.accept? kind s = .read none s [] := by simp only [Parser.accept?, Parser.take?, h]
  have hexpect : Parser.expect kind fault s = .rejected s.tallied [] (faultHere fault s) := by
    rw [Parser.expect, bind_read haccept]
    rfl
  rw [bind_run, hexpect]

/-- Together with the brace at its end, a body goes on like any other phrase. -/
theorem Follows.body {p q : Parser α} {fault : SyntaxFault} {g g' : α → Token → Parser β}
    (h : ∀ s : ParserState, s.rest <:+ j.tokens →
      j.Alike true (p s) (q (j.extend s)) ∨ j.Stranded (p s) (q (j.extend s)))
    (hg : ∀ a t, j.Follows false ready (g a t) (g' a t)) :
    j.Follows start ready (p >>= fun a => Parser.expect .rightBrace fault >>= g a)
      (q >>= fun a => Parser.expect .rightBrace fault >>= g' a) := by
  intro s hs _
  rcases h s hs with h | ⟨a, s', reports, hp, hend, hother⟩
  · exact h.bind fun a => .expect fault rfl fun t _ => hg a t
  have hrun := bind_read (g := fun a => Parser.expect .rightBrace fault >>= g a) hp
  rw [expect_end fault (g a) hend] at hrun
  have hended : Ended ((p >>= fun a => Parser.expect .rightBrace fault >>= g a) s) := by
    rw [hrun]
    exact ⟨_, List.mem_append_right _ (List.mem_singleton_self _), faultHere_ended fault hend⟩
  rcases hother with ⟨r, hr, hmore⟩ | ⟨b, t, reports', hq, hend'⟩
  · rcases bind_reports (g := fun a => Parser.expect .rightBrace fault >>= g' a) hr with hout | hr
    · rw [hout]
      exact .exhausted'
    · exact .struck hended ⟨r, hr, hmore⟩
  · rw [hrun] at hended ⊢
    rw [bind_read hq, expect_end fault (g' b) hend']
    exact .drained hend hend' hended

end Junction

end Parser

end Lox
