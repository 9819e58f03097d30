/-
  Lox.Proofs.Grammar.Completeness — what derives from the grammar is read, with the tree of
  the derivation, and reported exactly if it is not valid (`Declarations.yields_program`). The parser
  takes what it can, so each phrase comes with what must not follow it. Nested phrases are
  shorter, and the bound on tokens is never met.
-/

import Lox.Proofs.Parser.Yields
import Lox.Proofs.Valid

namespace Lox

def Context.inFunction (c : Context) : Bool := !c.functions.isEmpty

namespace Parser

open Grammar

variable {s s' : ParserState} {ts rest : List Token} {n : Nat}

/-! ## What follows an expression -/

/-- Nothing comes next that calls or accesses an operand, or joins it by such an operator. -/
structure Clear (ps : List Precedence) (rest : List Token) : Prop where
  paren : ¬ Next .leftParen rest
  dot : ¬ Next .dot rest
  operator : ∀ p ∈ ps, ∀ kind, Next kind rest → p.level kind = none

/-- Nothing comes next that carries an expression on. -/
structure Ends (rest : List Token) : Prop extends Clear precedences rest where
  equal : ¬ Next .equal rest

/-- No operator belongs to two levels. -/
theorem level_unique {p q : Precedence} {kind : TokenKind} {combine : Nat → Expr → Expr → Expr}
    (h : p.level kind = some combine) (hq : q ≠ p) : q.level kind = none := by
  cases operator_iff.mpr h <;> cases q <;> first | rfl | exact absurd rfl hq

theorem clear_equal {t : Token} (ht : t.kind = .equal) (ps : List Precedence) : Clear ps (t :: rest) := by
  constructor
  · simp [ht]
  · simp [ht]
  · rintro p - kind hk
    rw [next_cons, ht] at hk
    subst hk
    cases p <;> rfl

theorem ends_of_kind {t : Token} (ht : t.kind = .rightParen ∨ t.kind = .semicolon ∨ t.kind = .comma) :
    Ends (t :: rest) := by
  constructor
  · constructor
    · rcases ht with ht | ht | ht <;> simp [ht]
    · rcases ht with ht | ht | ht <;> simp [ht]
    · rintro p - kind hk
      rw [next_cons] at hk
      subst hk
      rcases ht with ht | ht | ht <;> rw [ht] <;> cases p <;> rfl
  · rcases ht with ht | ht | ht <;> simp [ht]

/-- Operands of one level are followed by their operator or by what follows all of them. -/
theorem clear_operands {p : Precedence} {tighter : List Precedence} {left e : Expr}
    (h : Operands p tighter left ts e rest) (hp : p ∉ tighter) (hr : Clear (p :: tighter) rest) : Clear tighter ts := by
  cases h with
  | done => exact ⟨hr.paren, hr.dot, fun q hq => hr.operator q (List.mem_cons_of_mem p hq)⟩
  | more hop _ _ =>
    rw [operator_iff] at hop
    constructor
    · rw [next_cons]
      intro hk
      rw [hk] at hop
      cases p <;> cases hop
    · rw [next_cons]
      intro hk
      rw [hk] at hop
      cases p <;> cases hop
    · intro q hq kind hk
      rw [next_cons] at hk
      subst hk
      exact level_unique hop fun h => hp (h ▸ hq)

/-- Too many are reported with the first that is one too many. -/
theorem limit_step (count k : Nat) :
    (count ≤ 255 → count + (k + 1) ≤ 255) ↔ count ≠ 255 ∧ (count + 1 ≤ 255 → count + 1 + k ≤ 255) := by
  omega

theorem limit_last (count : Nat) : (count ≤ 255 → count + 1 ≤ 255) ↔ count ≠ 255 := by
  omega

/-! ## Steps -/

/-- Operands end where no operator of their level follows. -/
theorem operands_stop {operand : Parser Expr} {p : Precedence} {left : Expr} {ps : List Precedence} {fuel : Nat}
    (hr : Clear ps rest) (hp : p ∈ ps) (hf : 0 < fuel) :
    Silent (operands operand p.level fuel left) (s.at rest) left (s.at rest) := by
  obtain ⟨fuel, rfl⟩ : ∃ k, fuel = k + 1 := ⟨fuel - 1, by omega⟩
  refine Silent.seq (take?_other fun t more ht => ?_) silent_pure
  rw [hr.operator p hp t.kind (ht ▸ next_cons.mpr rfl)]
  rfl

/-- An operand on its own is an operation of any levels. -/
theorem Yields.binary {tightest : Parser Expr} {e : Expr} {V : Prop} {ps : List Precedence}
    (h : Yields tightest (s.at ts) e (s.at rest) V) (hr : Clear ps rest) :
    Yields (binary (n + 1) tightest (ps.map Precedence.level)) (s.at ts) e (s.at rest) V := by
  induction ps with
  | nil => exact h
  | cons p tighter ih =>
    have htighter : Clear tighter rest := ⟨hr.paren, hr.dot, fun q hq => hr.operator q (List.mem_cons_of_mem p hq)⟩
    exact (ih htighter).then (operands_stop hr List.mem_cons_self n.succ_pos)

/-- Accesses end where neither a call nor a property follows. -/
theorem accesses_stop {i : Inner} {e : Expr} {fuel : Nat} {ps : List Precedence} (hr : Clear ps rest) (hf : 0 < fuel) :
    Silent (accesses i fuel e) (s.at rest) e (s.at rest) := by
  obtain ⟨fuel, rfl⟩ : ∃ k, fuel = k + 1 := ⟨fuel - 1, by omega⟩
  exact (accept_other hr.paren).seq ((accept_other hr.dot).seq silent_pure)

theorem unaryOp?_of_primary {kind : TokenKind} (h : beginsPrimary kind = true) : unaryOp? kind = none := by
  cases kind <;> first | rfl | cases h

/-- What starts no sign is read as a call. -/
theorem Yields.unary {i : Inner} {e : Expr} {V : Prop} (h : Yields (call i) (s.at ts) e (s.at rest) V)
    (hts : Headed beginsPrimary ts rest) : Yields (unary i) (s.at ts) e (s.at rest) V := by
  refine Silent.bind (take?_other fun t more ht => ?_) h
  obtain ⟨t', more', hts, hb, -⟩ := hts
  cases ht.symm.trans hts
  rw [unaryOp?_of_primary hb]
  rfl

/-- An operation is valid if both operands are. -/
theorem valid_combine {p : Precedence} {kind : TokenKind} {combine : Nat → Expr → Expr → Expr}
    (h : Operator p kind combine) (c : EnclosingClass) (line : Nat) (left right : Expr) :
    (combine line left right).Valid c ↔ left.Valid c ∧ right.Valid c := by
  cases h <;> rfl

/-- The operand of a sign is read as the sign's own phrase says. -/
theorem unary_sign {op : UnaryOp} {t : Token} (ht : unaryOp? t.kind = some op) {e : Expr} {V : Prop}
    (h : Yields (Parser.unary (inner n)) (s.at ts) e (s.at rest) V) :
    Yields (Parser.unary (inner (n + 1))) (s.at (t :: ts)) (.unary op t.line e) (s.at rest) V := by
  have htake : Silent (take? fun t => (unaryOp? t.kind).map (Expr.unary · t.line)) (s.at (t :: ts))
      (some (Expr.unary op t.line)) (s.at ts) := take?_next (by rw [ht]; rfl)
  exact htake.bind (h.then silent_pure)

/-- A word or group is read as its first token says. -/
theorem Yields.primary {i : Inner} {t : Token} {p : Parser Expr} {e : Expr} {V : Prop}
    (hp : Yields p (s.at ts) e s' V) (ht : primaryFrom i t = some p) : Yields (primary i) (s.at (t :: ts)) e s' V :=
  (take?_next ht).bind hp

/-- A name on its own, before something that does not carry it on. -/
theorem call_name {t : Token} (ht : t.kind = .identifier) {ps : List Precedence} (hr : Clear ps rest) :
    Yields (call (inner (n + 1))) (s.at (t :: rest)) (.var (nameOf t)) (s.at rest) True := by
  have hfrom : primaryFrom (inner (n + 1)) t = some (pure (.var (nameOf t))) := by
    simp only [primaryFrom, ht]
    rfl
  exact (silent_pure.yields.primary hfrom).then (accesses_stop hr n.succ_pos)

/-- An assignment, from its left side and its value. -/
theorem yields_assignment {left value e : Expr} {equal : Token} {V W : Prop}
    (hleft : Yields (call (inner (n + 1))) (s.at ts) left (s.at (equal :: rest)) V)
    (hts : Headed beginsPrimary ts (equal :: rest)) (hequal : equal.kind = .equal)
    (hvalue : Yields (inner (n + 1)).expression (s.at rest) value s' W) (he : assignTo? value left = some e) :
    Yields (expression (inner (n + 1))) (s.at ts) e s' (V ∧ W) := by
  have hbinary := (hleft.unary hts).binary (n := n) (clear_equal hequal precedences)
  refine hbinary.bind ((accept?_next hequal).bind (hvalue.then ?_))
  rw [he]
  exact silent_pure

/-- A property, read up to an assignment to it. -/
theorem accesses_property {i : Inner} {object : Expr} {dot name : Token} (hd : dot.kind = .dot)
    (hn : name.kind = .identifier) {ps : List Precedence} (hr : Clear ps rest) {fuel : Nat} (hf : 1 < fuel) :
    Silent (accesses i fuel object) (s.at (dot :: name :: rest)) (.get object (nameOf name)) (s.at rest) := by
  obtain ⟨fuel, rfl⟩ : ∃ k, fuel = k + 1 := ⟨fuel - 1, by omega⟩
  refine (accept_other (by simp [hd])).seq ((accept_next hd).seq ?_)
  exact (expectName_next hn).seq (accesses_stop hr (by omega))

/-- Outside of classes the word for the receiver is reported. -/
theorem yields_thisWord (t : Token) :
    Yields (thisWord t) (s.at ts) (.this t.line) (s.at ts) (s.context.enclosingClass ≠ .outside) := by
  have hcheck : Yields (checkThis t) (s.at ts) () (s.at ts) (s.context.enclosingClass ≠ .outside) := by
    refine silent_context.bind ?_
    cases hc : s.context.enclosingClass with
    | outside => rw [ParserState.at_context, hc]; exact yields_reportAt.congr (by simp)
    | base => rw [ParserState.at_context, hc]; exact silent_pure.yields.congr (by simp)
    | derived => rw [ParserState.at_context, hc]; exact silent_pure.yields.congr (by simp)
  exact hcheck.then silent_pure

theorem yields_superMethod {t dot method : Token} (hd : dot.kind = .dot) (hm : method.kind = .identifier) :
    Yields (superMethod t) (s.at (dot :: method :: rest)) (.super t.line (nameOf method)) (s.at rest)
      (s.context.enclosingClass = .derived) := by
  have hcheck : Yields (checkSuper t) (s.at (dot :: method :: rest)) () (s.at (dot :: method :: rest))
      (s.context.enclosingClass = .derived) := by
    refine silent_context.bind ?_
    cases hc : s.context.enclosingClass with
    | outside => rw [ParserState.at_context, hc]; exact yields_reportAt.congr (by simp)
    | base => rw [ParserState.at_context, hc]; exact yields_reportAt.congr (by simp)
    | derived => rw [ParserState.at_context, hc]; exact silent_pure.yields.congr (by simp)
  exact hcheck.then ((expect_next hd).seq ((expectName_next hm).seq silent_pure))

theorem yields_group {e : Expr} {closing : Token} {V : Prop}
    (h : Yields (expression (inner n)) (s.at ts) e (s.at (closing :: rest)) V) (hc : closing.kind = .rightParen) :
    Yields (group (inner (n + 1))) (s.at ts) (.group e) (s.at rest) V :=
  h.then ((expect_next hc).seq silent_pure)

/-- A call, and the accesses after it. -/
theorem yields_accesses_call {i : Inner} {callee a : Expr} {args : List Expr} {opening closing : Token}
    {V W : Prop} {fuel : Nat} (ho : opening.kind = .leftParen)
    (hargs : Yields (listed (arguments i i.bound 0)) (s.at ts) args (s.at (closing :: rest)) V)
    (hc : closing.kind = .rightParen) (hlen : rest.length < ts.length) (hf : (opening :: ts).length < fuel)
    (hmore : ∀ fuel, rest.length < fuel → Yields (accesses i fuel (.call callee args closing.line)) (s.at rest) a s' W) :
    Yields (accesses i fuel callee) (s.at (opening :: ts)) a s' (V ∧ W) := by
  rw [List.length_cons] at hf
  obtain ⟨fuel, rfl⟩ : ∃ k, fuel = k + 1 := ⟨fuel - 1, by omega⟩
  have hcall : Yields (finishCall i callee) (s.at ts) (.call callee args closing.line) (s.at rest) V :=
    hargs.then ((expect_next hc).seq silent_pure)
  exact (accept_next ho).bind (hcall.bind (hmore fuel (by omega)))

end Parser

namespace Grammar

open Lox.Parser

/-! ## Expressions -/

mutual

/-- What the grammar derives, the parser reads, and reports exactly if it is not valid here. -/
theorem Expression.yields {ts rest : List Token} {e : Expr} :
    Expression ts e rest → ∀ (n : Nat) (s : ParserState), ts.length ≤ n → Ends rest →
      Yields (expression (inner (n + 1))) (s.at ts) e (s.at rest) (e.Valid s.context.enclosingClass)
  | .assign hn he h, n, s, hlen, hr => by
    simp only [List.length_cons] at hlen
    obtain ⟨n, rfl⟩ : ∃ k, n = k + 1 := ⟨n - 1, by omega⟩
    have hvalue := h.yields n s (by omega) hr
    have hassign := yields_assignment (call_name hn (clear_equal he [])) (.cons hn List.suffix_rfl rfl) he hvalue rfl
    exact hassign.congr (by simp [Expr.Valid])
  | .set h hd hn he h', n, s, hlen, hr => by
    have hlen' := h.headed.length_lt
    simp only [List.length_cons] at hlen'
    obtain ⟨n, rfl⟩ : ∃ k, n = k + 1 := ⟨n - 1, by omega⟩
    have hvalue := h'.yields n s (by omega) hr
    have hget := h.yields (n + 1) s hlen fun fuel hf =>
      (accesses_property hd hn (clear_equal he []) (by simp only [List.length_cons] at hf; omega)).yields
    have hhead := h.headed.trans (suffix_of_cons (List.suffix_cons _ _))
    exact (yields_assignment hget hhead he hvalue rfl).congr (by simp [Expr.Valid])
  | .operation h, n, s, hlen, hr => by
    refine (h.yields (by decide) n s hlen hr.toClear).then ?_
    exact (accept?_other hr.equal).seq silent_pure

theorem Operation.yields {ps : List Precedence} {ts rest : List Token} {e : Expr} :
    Operation ps ts e rest → ps.Nodup → ∀ (n : Nat) (s : ParserState), ts.length ≤ n → Clear ps rest →
      Yields (binary (n + 1) (unary (inner (n + 1))) (ps.map Precedence.level)) (s.at ts) e (s.at rest)
        (e.Valid s.context.enclosingClass)
  | .unary h, _, n, s, hlen, hr => h.yields n s hlen hr
  | .level h h', hps, n, s, hlen, hr => by
    obtain ⟨hp, htighter⟩ := List.nodup_cons.mp hps
    have hlen' := h.headed.length_lt
    have hleft := h.yields htighter n s hlen (clear_operands h' hp hr)
    obtain ⟨V, hv, hright⟩ := h'.yields hps n (n + 1) s (by omega) (by omega) hr
    exact (hleft.bind hright).congr hv.symm

/-- The parts that are read must be valid for the whole to be. -/
theorem Operands.yields {p : Precedence} {tighter : List Precedence} {left e : Expr} {ts rest : List Token} :
    Operands p tighter left ts e rest → (p :: tighter).Nodup → ∀ (n fuel : Nat) (s : ParserState), ts.length ≤ n →
      ts.length < fuel → Clear (p :: tighter) rest →
      ∃ V, (e.Valid s.context.enclosingClass ↔ left.Valid s.context.enclosingClass ∧ V) ∧
        Yields (operands (binary (n + 1) (unary (inner (n + 1))) (tighter.map Precedence.level)) p.level fuel left)
          (s.at ts) e (s.at rest) V
  | .done, _, n, fuel, s, _, hf, hr =>
    ⟨True, by simp, (operands_stop hr List.mem_cons_self (by omega)).yields⟩
  | .more hop h h', hps, n, fuel + 1, s, hlen, hf, hr => by
    simp only [List.length_cons] at hlen hf
    obtain ⟨hp, htighter⟩ := List.nodup_cons.mp hps
    have hlen' := h.headed.length_lt
    have hright := h.yields htighter n s (by omega) (clear_operands h' hp hr)
    obtain ⟨V, hv, hmore⟩ := h'.yields hps n fuel s (by omega) (by omega) hr
    refine ⟨_, ?_, Silent.bind (take?_next ?_) (hright.bind hmore)⟩
    · rw [hv, valid_combine hop, and_assoc]
    · rw [operator_iff.mp hop]
      rfl

theorem Unary.yields {ts rest : List Token} {e : Expr} :
    Unary ts e rest → ∀ (n : Nat) (s : ParserState), ts.length ≤ n → ∀ {ps : List Precedence}, Clear ps rest →
      Yields (unary (inner (n + 1))) (s.at ts) e (s.at rest) (e.Valid s.context.enclosingClass)
  | .not ht h, n, s, hlen, _, hr => by
    simp only [List.length_cons] at hlen
    obtain ⟨n, rfl⟩ : ∃ k, n = k + 1 := ⟨n - 1, by omega⟩
    exact unary_sign (by rw [ht]; rfl) (h.yields n s (by omega) hr)
  | .negate ht h, n, s, hlen, _, hr => by
    simp only [List.length_cons] at hlen
    obtain ⟨n, rfl⟩ : ∃ k, n = k + 1 := ⟨n - 1, by omega⟩
    exact unary_sign (by rw [ht]; rfl) (h.yields n s (by omega) hr)
  | .call h, n, s, hlen, _, hr => by
    have hcall := h.yields n s hlen fun fuel hf => (accesses_stop hr (by omega)).yields
    exact (hcall.congr (.of_eq (and_true _))).unary h.headed

/-- A call is read, and what the parser makes of the rest from there. -/
theorem Call.yields {ts rest : List Token} {e : Expr} :
    Call ts e rest → ∀ (n : Nat) (s : ParserState), ts.length ≤ n → ∀ {a : Expr} {s' : ParserState} {W : Prop},
      (∀ fuel, rest.length < fuel → Yields (accesses (inner (n + 1)) fuel e) (s.at rest) a s' W) →
      Yields (call (inner (n + 1))) (s.at ts) a s' (e.Valid s.context.enclosingClass ∧ W)
  | .mk h h', n, s, hlen, _, _, _, hrest => by
    have hlen' := h.headed.length_lt
    obtain ⟨V, hv, hmore⟩ := h'.yields n s (by omega)
    exact ((h.yields n s hlen).bind (hmore (n + 1) (by omega) hrest)).congr (by rw [hv, and_assoc])

theorem Accesses.yields {first e : Expr} {ts rest : List Token} :
    Accesses first ts e rest → ∀ (n : Nat) (s : ParserState), ts.length ≤ n →
      ∃ V, (e.Valid s.context.enclosingClass ↔ first.Valid s.context.enclosingClass ∧ V) ∧
        ∀ (fuel : Nat), ts.length < fuel → ∀ {a : Expr} {s' : ParserState} {W : Prop},
          (∀ fuel, rest.length < fuel → Yields (accesses (inner (n + 1)) fuel e) (s.at rest) a s' W) →
          Yields (accesses (inner (n + 1)) fuel first) (s.at ts) a s' (V ∧ W)
  | .done, n, s, _ => ⟨True, by simp, fun fuel hf _ _ _ hrest => (hrest fuel hf).congr (.of_eq (true_and _).symm)⟩
  | .call ho hc h, n, s, hlen => by
    simp only [List.length_cons] at hlen
    obtain ⟨V, hv, hmore⟩ := h.yields n s (by omega)
    refine ⟨True ∧ V, by rw [hv]; simp [Expr.Valid, Expr.AllValid], fun fuel hf _ _ _ hrest => ?_⟩
    rw [and_assoc]
    exact yields_accesses_call ho (listed_stop (next_cons.mpr hc)).yields hc (by simp) hf
      fun fuel hf => hmore fuel hf hrest
  | .callWith ho ha hc h, n, s, hlen => by
    have hlen' := ha.headed.length_lt
    simp only [List.length_cons] at hlen hlen'
    obtain ⟨n, rfl⟩ : ∃ k, n = k + 1 := ⟨n - 1, by omega⟩
    obtain ⟨V, hv, hmore⟩ := h.yields (n + 1) s (by omega)
    have hargs := ha.yields n (n + 2) 0 s (by omega) (by omega) (ends_of_kind (.inl hc)) (by simp [hc])
    refine ⟨_ ∧ V, ?_, fun fuel hf _ _ _ hrest => (yields_accesses_call ho (hargs.listed (ha.headed.not_next rfl)) hc
      (by omega) hf fun fuel hf => hmore fuel hf hrest).congr and_assoc.symm⟩
    rw [hv]
    simp [Expr.Valid, and_assoc]
  | .get hd hn h, n, s, hlen => by
    simp only [List.length_cons] at hlen
    obtain ⟨V, hv, hmore⟩ := h.yields n s (by omega)
    refine ⟨V, by rw [hv]; rfl, fun fuel hf _ _ _ hrest => ?_⟩
    simp only [List.length_cons] at hf
    obtain ⟨fuel, rfl⟩ : ∃ k, fuel = k + 1 := ⟨fuel - 1, by omega⟩
    refine (accept_other (by simp [hd])).bind ((accept_next hd).bind ?_)
    exact (expectName_next hn).bind (hmore fuel (by omega) hrest)

/-- One report more when there are too many arguments. -/
theorem Arguments.yields {ts rest : List Token} {es : List Expr} :
    Arguments ts es rest → ∀ (n fuel count : Nat) (s : ParserState), ts.length ≤ n → ts.length < fuel → Ends rest →
      ¬ Next .comma rest →
      Yields (arguments (inner (n + 2)) fuel count) (s.at ts) es (s.at rest)
        (Expr.AllValid s.context.enclosingClass es ∧ (count ≤ 255 → count + es.length ≤ 255))
  | .one h, n, fuel + 1, count, s, hlen, _, hr, hcomma => by
    refine Yields.congr (yields_limit.bind ((h.yields n s hlen hr).then ?_)) ?_
    · exact (accept_other hcomma).seq silent_pure
    · simp only [Expr.AllValid, List.length_cons, List.length_nil, true_and, Nat.zero_add, limit_last, and_comm]
  | .more h hc h', n, fuel + 1, count, s, hlen, hf, hr, hcomma => by
    have hlen' := h.headed.length_lt
    simp only [List.length_cons] at hlen'
    have hfirst := h.yields n s hlen (ends_of_kind (.inr (.inr hc)))
    have hmore := h'.yields n fuel (count + 1) s (by omega) (by omega) hr hcomma
    refine Yields.congr (yields_limit.bind (hfirst.bind ((accept_next hc).bind (hmore.then silent_pure)))) ?_
    simp only [Expr.AllValid, List.length_cons, limit_step, and_assoc, and_left_comm]

theorem Primary.yields {ts rest : List Token} {e : Expr} :
    Primary ts e rest → ∀ (n : Nat) (s : ParserState), ts.length ≤ n →
      Yields (primary (inner (n + 1))) (s.at ts) e (s.at rest) (e.Valid s.context.enclosingClass)
  | .number ht, _, _, _ => silent_pure.yields.primary (by simp only [primaryFrom, ht])
  | .string ht, _, _, _ => silent_pure.yields.primary (by simp only [primaryFrom, ht])
  | .var ht, _, _, _ => silent_pure.yields.primary (by simp only [primaryFrom, ht]; rfl)
  | .true ht, _, _, _ => silent_pure.yields.primary (by simp only [primaryFrom, ht])
  | .false ht, _, _, _ => silent_pure.yields.primary (by simp only [primaryFrom, ht])
  | .nil ht, _, _, _ => silent_pure.yields.primary (by simp only [primaryFrom, ht])
  | .this ht, _, _, _ => (yields_thisWord _).primary (by simp only [primaryFrom, ht])
  | .super ht hd hm, _, _, _ => (yields_superMethod hd hm).primary (by simp only [primaryFrom, ht])
  | .group ht h hc, n, s, hlen => by
    simp only [List.length_cons] at hlen
    obtain ⟨n, rfl⟩ : ∃ k, n = k + 1 := ⟨n - 1, by omega⟩
    have hgroup := yields_group (h.yields n s (by omega) (ends_of_kind (.inl hc))) hc
    exact hgroup.primary (by simp only [primaryFrom, ht])

end

/-! ## Statements without statements inside -/

theorem Optional.yields_unless? {ts rest : List Token} {o : Option Expr} {stop : TokenKind} :
    Optional Expression ts o rest → ∀ (n : Nat) (s : ParserState), ts.length ≤ n → beginsExpression stop = false →
      Next stop rest → Ends rest →
      Yields (unless? stop (expression (inner (n + 1)))) (s.at ts) o (s.at rest) (∀ e ∈ o, e.Valid s.context.enclosingClass)
  | .none, n, s, _, _, hstop, _ => (unless?_stop hstop).yields.congr (by simp)
  | .some h, n, s, hlen, hb, _, hr => ((h.yields n s hlen hr).unless? (h.headed.not_next hb)).congr (by simp)

theorem VarDecl.keyword {ts rest : List Token} {st : Stmt} :
    VarDecl ts st rest → ∃ t more, ts = t :: more ∧ t.kind = .var_
  | .mk hk _ _ _ => ⟨_, _, rfl, hk⟩

theorem VarDecl.yields {keyword : Token} {ts rest : List Token} {st : Stmt} (h : VarDecl (keyword :: ts) st rest)
    (n : Nat) (s : ParserState) (hlen : ts.length ≤ n) (inFunction : Bool) :
    Yields (varDecl (inner (n + 1))) (s.at ts) st (s.at rest) (st.Valid inFunction s.context.enclosingClass) := by
  obtain ⟨hk, hn, hinit, hsemi⟩ := h
  simp only [List.length_cons] at hlen
  refine (expectName_next hn).bind ?_
  cases hinit with
  | none =>
    refine Yields.congr (V := True) (Silent.yields ?_) (by simp [Stmt.Valid])
    exact (after?_other (by simp [hsemi])).seq ((expect_next hsemi).seq silent_pure)
  | some hinit =>
    obtain ⟨hequal, hinit⟩ := hinit
    simp only [List.length_cons] at hlen
    have he := hinit.yields n s (by omega) (ends_of_kind (.inr (.inl hsemi)))
    refine Yields.congr ((he.after? hequal).then ?_) (by simp [Stmt.Valid])
    exact (expect_next hsemi).seq silent_pure

theorem ExpressionStmt.yields {ts rest : List Token} {st : Stmt} (h : ExpressionStmt ts st rest)
    (n : Nat) (s : ParserState) (hlen : ts.length ≤ n) (inFunction : Bool) :
    Yields (expressionStmt (inner (n + 1))) (s.at ts) st (s.at rest) (st.Valid inFunction s.context.enclosingClass) := by
  obtain ⟨he, hsemi⟩ := h
  refine (he.yields n s hlen (ends_of_kind (.inr (.inl hsemi)))).then ?_
  exact (expect_next hsemi).seq silent_pure

theorem ForInitializer.yields {ts rest : List Token} {o : Option Stmt} (inFunction : Bool) :
    ForInitializer ts o rest → ∀ (n : Nat) (s : ParserState), ts.length ≤ n →
      Yields (forInitializer (inner (n + 1))) (s.at ts) o (s.at rest)
        (∀ st ∈ o, st.Valid inFunction s.context.enclosingClass)
  | .none hsemi, n, s, _ => Yields.congr (Silent.yields ((accept_next hsemi).seq silent_pure)) (by simp)
  | .var h, n, s, hlen => by
    obtain ⟨keyword, more, rfl, hk⟩ := h.keyword
    simp only [List.length_cons] at hlen
    have hvar := h.yields n s (by omega) inFunction
    exact Yields.congr (Silent.bind (accept_other (by simp [hk])) ((accept_next hk).bind hvar.map)) (by simp)
  | .expression h, n, s, hlen => by
    have he := h.yields n s hlen inFunction
    have hsemi := h.headed.not_next (rfl : beginsExpression .semicolon = false)
    have hvar := h.headed.not_next (rfl : beginsExpression .var_ = false)
    exact Yields.congr (Silent.bind (accept_other hsemi) ((accept_other hvar).bind he.map)) (by simp)

theorem Parameters.yields {ts rest : List Token} {names : List Name} :
    Parameters ts names rest → ∀ (fuel count : Nat) (s : ParserState), ts.length < fuel → ¬ Next .comma rest →
      Yields (parameters fuel count) (s.at ts) names (s.at rest) (count ≤ 255 → count + names.length ≤ 255)
  | .one ht, fuel + 1, count, s, _, hcomma => by
    refine Yields.congr (yields_limit.then ?_) (limit_last count).symm
    exact (expectName_next ht).seq ((accept_other hcomma).seq silent_pure)
  | .more ht hc h, fuel + 1, count, s, hf, hcomma => by
    simp only [List.length_cons] at hf
    have hmore := h.yields fuel (count + 1) s (by omega) hcomma
    refine Yields.congr (yields_limit.bind ((expectName_next ht).bind ((accept_next hc).bind (hmore.then silent_pure)))) ?_
    rw [List.length_cons, limit_step]

/-! ## First tokens of statements and declarations -/

/-- No statement with a keyword starts like an expression. -/
theorem statementFrom_of_expression {i : Inner} {t : Token} (h : beginsExpression t.kind = true) :
    statementFrom i t = none := by
  unfold statementFrom
  split <;> first | rfl | (rename_i hk; rw [hk] at h; cases h)

theorem declarationFrom_of_statement {i : Inner} {t : Token} (h : beginsStatement t.kind = true) :
    declarationFrom i t = none := by
  unfold declarationFrom
  split <;> first | rfl | (rename_i hk; rw [hk] at h; cases h)

/-- A statement is read as its first token says. -/
theorem yields_statement {i : Inner} {t : Token} {p : Parser Stmt} {st : Stmt} {V : Prop} {s s' : ParserState}
    {ts : List Token} (ht : statementFrom i t = some p) (hp : Yields p (s.at ts) st s' V) :
    Yields (statement i) (s.at (t :: ts)) st s' V :=
  (take?_next ht).bind hp

theorem yields_declaration {i : Inner} {t : Token} {p : Parser Stmt} {d : Stmt} {V : Prop} {s s' : ParserState}
    {ts : List Token} (ht : declarationFrom i t = some p) (hp : Yields p (s.at ts) d s' V) :
    Yields (declaration i) (s.at (t :: ts)) (some d) s' V := by
  have hd : Yields (plainDeclaration i) (s.at (t :: ts)) d s' V := (take?_next ht).bind hp
  exact hd.recovering

theorem atBodyEnd_of_nil {s : ParserState} : Silent atBodyEnd (s.at []) true (s.at []) :=
  fun _ => rfl

theorem atBodyEnd_of_next {s : ParserState} {ts : List Token} (h : Next .rightBrace ts) :
    Silent atBodyEnd (s.at ts) true (s.at ts) :=
  fun _ => reads_atBodyEnd.mpr ⟨iff_of_true rfl (.inr h), rfl⟩

theorem atBodyEnd_of_headed {begins : TokenKind → Bool} {s : ParserState} {ts rest : List Token}
    (h : Headed begins ts rest) (hb : begins .rightBrace = false) : Silent atBodyEnd (s.at ts) false (s.at ts) := by
  have hnext := h.not_next hb
  obtain ⟨t, more, rfl, -, -⟩ := h
  exact fun _ => reads_atBodyEnd.mpr ⟨iff_of_false Bool.false_ne_true (by simp [hnext]), rfl⟩

theorem yields_block {n : Nat} {s : ParserState} {ts rest : List Token} {body : List Stmt} {closing : Token} {V : Prop}
    (hbody : Yields (declarations (inner (n + 1)) (n + 1)) (s.at ts) body (s.at (closing :: rest)) V)
    (hc : closing.kind = .rightBrace) : Yields (block (inner (n + 1))) (s.at ts) body (s.at rest) V :=
  hbody.then ((expect_next hc).seq silent_pure)

/-- A return outside of functions is reported. -/
theorem yields_checkReturn (keyword : Token) {s : ParserState} :
    Yields (checkReturn keyword) s () s (s.context.inFunction = true) := by
  refine silent_context.bind ?_
  unfold Context.inFunction
  cases hc : s.context.functions with
  | nil => exact yields_reportAt.congr (by simp)
  | cons kind functions => exact silent_pure.yields.congr (by simp)

/-- A class that inherits from itself is reported. -/
theorem yields_parentName {t : Token} (ht : t.kind = .identifier) (name : Name) {s : ParserState} {rest : List Token} :
    Yields (parentName name) (s.at (t :: rest)) (nameOf t) (s.at rest) (t.lexeme ≠ name.text) := by
  have hcheck : Yields (checkParent name t) (s.at rest) () (s.at rest) (t.lexeme ≠ name.text) := by
    unfold checkParent
    by_cases h : t.lexeme = name.text
    · rw [if_pos h]
      exact yields_reportAt.congr (by simp [h])
    · rw [if_neg h]
      exact silent_pure.yields.congr (by simp [h])
  exact (expect_next ht).bind (hcheck.then silent_pure)

theorem Optional.yields_parent {ts rest : List Token} {parent : Option Name}
    (h : Optional (After .less Identifier) ts parent rest) (name : Name) (s : ParserState) (hr : ¬ Next .less rest) :
    Yields (after? .less (parentName name)) (s.at ts) parent (s.at rest) (∀ p ∈ parent, p.text ≠ name.text) := by
  cases h with
  | none => exact (after?_other hr).yields.congr (by simp)
  | some h =>
    obtain ⟨hless, ⟨ht⟩⟩ := h
    exact ((yields_parentName ht name).after? hless).congr (by simp [nameOf])

theorem Optional.yields_parameters {ts rest : List Token} {params : Option (List Name)}
    (h : Optional Parameters ts params rest) (fuel : Nat) (s : ParserState) (hr : Next .rightParen rest) (hf : ts.length < fuel) :
    Yields (listed (parameters fuel 0)) (s.at ts) (params.getD []) (s.at rest) ((params.getD []).length ≤ 255) := by
  cases h with
  | none => exact (listed_stop hr).yields.congr (by simp)
  | some h =>
    have hcomma : ¬ Next .comma rest := fun hcomma => by cases hr.unique hcomma
    exact ((h.yields fuel 0 s hf hcomma).listed (h.headed.not_next rfl)).congr (by simp)

/-! ## Statements and declarations -/

mutual

/-- An open statement is read to its end only if no `else` follows. -/
theorem Statement.yields {isOpen : Bool} {ts rest : List Token} {st : Stmt} :
    Statement true isOpen ts st rest → ∀ (n : Nat) (s : ParserState), ts.length ≤ n →
      (isOpen = true → ¬ Next .else_ rest) →
      Yields (statement (inner (n + 1))) (s.at ts) st (s.at rest) (st.Valid s.context.inFunction s.context.enclosingClass)
  | .expression h, n, s, hlen, _ => by
    refine Silent.bind (take?_other fun t more ht => ?_) (h.yields n s hlen _)
    obtain ⟨_, _, hts, hb, -⟩ := h.headed
    cases ht.symm.trans hts
    exact statementFrom_of_expression hb
  | .forLoop hk ho hinit hcond hsemi hinc hc hbody, n, s, hlen, hopen => by
    have hlen₁ := hinit.suffix.length_le
    have hlen₂ := hcond.expression_suffix.length_le
    have hlen₃ := hinc.expression_suffix.length_le
    simp only [List.length_cons] at hlen hlen₂ hlen₃
    obtain ⟨n, rfl⟩ : ∃ k, n = k + 1 := ⟨n - 1, by omega⟩
    have yinit := hinit.yields s.context.inFunction (n + 1) s (by omega)
    have ycond := hcond.yields_unless? (n + 1) s (by omega) rfl (next_cons.mpr hsemi) (ends_of_kind (.inr (.inl hsemi)))
    have yinc := hinc.yields_unless? (n + 1) s (by omega) rfl (next_cons.mpr hc) (ends_of_kind (.inl hc))
    have ybody := hbody.yields n s (by omega) hopen
    refine Yields.congr (yields_statement (p := forStmt (inner (n + 2))) (by simp only [statementFrom, hk])
      ((expect_next ho).bind (yinit.bind (ycond.bind ((expect_next hsemi).bind (yinc.bind ((expect_next hc).bind
        (ybody.then silent_pure)))))))) Stmt.valid_counting.symm
  | .ifOnly hk ho hcond hc hbody, n, s, hlen, hopen => by
    have hlen' := hcond.headed.length_lt
    simp only [List.length_cons] at hlen hlen'
    obtain ⟨n, rfl⟩ : ∃ k, n = k + 1 := ⟨n - 1, by omega⟩
    have ycond := hcond.yields (n + 1) s (by omega) (ends_of_kind (.inl hc))
    have ybody := hbody.yields n s (by omega) fun _ => hopen rfl
    exact yields_statement (p := ifStmt (inner (n + 2))) (by simp only [statementFrom, hk])
      ((expect_next ho).bind (ycond.bind ((expect_next hc).bind (ybody.then
        ((after?_other (hopen rfl)).seq silent_pure)))))
  | .ifElse hk ho hcond hc hbody hclosed hk' helse, n, s, hlen, hopen => by
    have hlen' := hcond.headed.length_lt
    have hlen'' := hbody.headed.length_lt
    simp only [List.length_cons] at hlen hlen' hlen''
    obtain ⟨n, rfl⟩ : ∃ k, n = k + 1 := ⟨n - 1, by omega⟩
    have ycond := hcond.yields (n + 1) s (by omega) (ends_of_kind (.inl hc))
    -- The branch is not open, so the `else` is not read as a part of it.
    have ybody := hbody.yields n s (by omega) fun hopen => by cases hopen.symm.trans (hclosed rfl)
    have yelse := helse.yields n s (by omega) hopen
    exact yields_statement (p := ifStmt (inner (n + 2))) (by simp only [statementFrom, hk])
      ((expect_next ho).bind (ycond.bind ((expect_next hc).bind (ybody.bind ((yelse.after? hk').then silent_pure)))))
  | .print hk he hsemi, n, s, hlen, _ => by
    simp only [List.length_cons] at hlen
    have ye := he.yields n s (by omega) (ends_of_kind (.inr (.inl hsemi)))
    exact yields_statement (p := printStmt (inner (n + 1))) (by simp only [statementFrom, hk])
      (ye.then ((expect_next hsemi).seq silent_pure))
  | .ret hk hv hsemi, n, s, hlen, _ => by
    simp only [List.length_cons] at hlen
    have yv := hv.yields_unless? n s (by omega) rfl (next_cons.mpr hsemi) (ends_of_kind (.inr (.inl hsemi)))
    exact yields_statement (p := returnStmt (inner (n + 1)) _) (by simp only [statementFrom, hk]; rfl)
      ((yields_checkReturn _).bind (yv.then ((expect_next hsemi).seq silent_pure)))
  | .whileLoop hk ho hcond hc hbody, n, s, hlen, hopen => by
    have hlen' := hcond.headed.length_lt
    simp only [List.length_cons] at hlen hlen'
    obtain ⟨n, rfl⟩ : ∃ k, n = k + 1 := ⟨n - 1, by omega⟩
    have ycond := hcond.yields (n + 1) s (by omega) (ends_of_kind (.inl hc))
    have ybody := hbody.yields n s (by omega) hopen
    exact yields_statement (p := whileStmt (inner (n + 2))) (by simp only [statementFrom, hk])
      ((expect_next ho).bind (ycond.bind ((expect_next hc).bind (ybody.then silent_pure))))
  | .block ho hbody hc, n, s, hlen, _ => by
    have hlen' := hbody.suffix.length_le
    simp only [List.length_cons] at hlen hlen'
    obtain ⟨n, rfl⟩ : ∃ k, n = k + 1 := ⟨n - 1, by omega⟩
    have ybody := hbody.yields n (n + 2) s (by omega) (by omega) (next_cons.mpr hc)
    exact yields_statement (p := .block <$> block (inner (n + 2))) (by simp only [statementFrom, ho])
      (yields_block ybody hc).map

theorem Declaration.yields {isOpen : Bool} {ts rest : List Token} {d : Stmt} :
    Declaration true isOpen ts d rest → ∀ (n : Nat) (s : ParserState), ts.length ≤ n →
      (isOpen = true → ¬ Next .else_ rest) →
      Yields (declaration (inner (n + 1))) (s.at ts) (some d) (s.at rest)
        (d.Valid s.context.inFunction s.context.enclosingClass)
  | @Declaration.classDecl _ _ name _ _ _ _ _ parent _ hk hn hparent ho hmethods hc, n, s, hlen, _ => by
    have hlen' := (hparent.suffix fun ⟨_, .mk _⟩ => suffix_of_cons (List.suffix_cons _ _)).length_le
    have hlen'' := hmethods.suffix.length_le
    simp only [List.length_cons] at hlen hlen' hlen''
    have yparent := hparent.yields_parent (nameOf name) s (by simp [ho])
    have ymethods := hmethods.yields n (n + 1)
      (s.within { s.context with enclosingClass := .ofParent parent }) (by omega) (by omega) (next_cons.mpr hc)
    exact yields_declaration (p := classDecl (inner (n + 1))) (by simp only [declarationFrom, hk])
      ((expectName_next hn).bind (yparent.bind (silent_context.bind (Yields.bracketed
        ((expect_next ho).bind (ymethods.then ((expect_next hc).seq silent_pure))) rfl))))
  | .function hk h, n, s, hlen, _ => by
    simp only [List.length_cons] at hlen
    exact yields_declaration (p := .function <$> function (inner (n + 1)) .plain) (by simp only [declarationFrom, hk])
      (h.yields n s (by omega) .plain).map
  | .var h, n, s, hlen, _ => by
    obtain ⟨keyword, more, rfl, hk⟩ := h.keyword
    simp only [List.length_cons] at hlen
    exact yields_declaration (by simp only [declarationFrom, hk]) (h.yields n s (by omega) _)
  | .statement h, n, s, hlen, hopen => by
    refine Yields.recovering (Silent.bind (take?_other fun t more ht => ?_) (h.yields n s hlen hopen))
    obtain ⟨_, _, hts, hb, -⟩ := h.headed
    cases ht.symm.trans hts
    exact declarationFrom_of_statement hb

theorem Declarations.yields {ts rest : List Token} {ss : List Stmt} :
    Declarations true ts ss rest → ∀ (n fuel : Nat) (s : ParserState), ts.length ≤ n → ts.length < fuel →
      Next .rightBrace rest →
      Yields (declarations (inner (n + 2)) fuel) (s.at ts) ss (s.at rest)
        (Stmt.AllValid s.context.inFunction s.context.enclosingClass ss)
  | .nil, n, fuel + 1, s, _, _, hr =>
    Silent.yields ((atBodyEnd_of_next hr).seq silent_pure)
  | .cons h h', n, fuel + 1, s, hlen, hf, hr => by
    have hlen' := h.headed.length_lt
    have helse : ¬ Next .else_ rest := fun helse => by cases hr.unique helse
    have yfirst := h.yields n s hlen fun _ => h'.not_else helse
    have ymore := h'.yields n fuel s (by omega) (by omega) hr
    exact (atBodyEnd_of_headed h.headed rfl).bind (yfirst.bind (ymore.then silent_pure))

theorem Function.yields {ts rest : List Token} {d : FunctionDecl} :
    Function true ts d rest → ∀ (n : Nat) (s : ParserState), ts.length ≤ n → ∀ kind : FunctionKind,
      Yields (function (inner (n + 1)) kind) (s.at ts) d (s.at rest) (d.Valid s.context.enclosingClass)
  | @Function.mk _ name _ _ _ _ _ _ _ _ _ hn ho hparams hc hb hbody hb', n, s, hlen, kind => by
    have hlen' := (hparams.suffix fun h => h.headed.suffix).length_le
    have hlen'' := hbody.suffix.length_le
    simp only [List.length_cons] at hlen hlen' hlen''
    obtain ⟨n, rfl⟩ : ∃ k, n = k + 1 := ⟨n - 1, by omega⟩
    let s' := s.within { s.context with functions := kind.named name.lexeme :: s.context.functions }
    have yparams := hparams.yields_parameters (n + 2) s' (next_cons.mpr hc) (by omega)
    have ybody := hbody.yields n (n + 2) s' (by omega) (by omega) (next_cons.mpr hb')
    exact (expectName_next hn).bind (Yields.bracketed ((expect_next ho).bind (yparams.bind ((expect_next hc).bind
      ((expect_next hb).bind ((yields_block ybody hb').then silent_pure))))) rfl)

theorem Methods.yields {ts rest : List Token} {ds : List FunctionDecl} :
    Methods true ts ds rest → ∀ (n fuel : Nat) (s : ParserState), ts.length ≤ n → ts.length < fuel →
      Next .rightBrace rest →
      Yields (methods (inner (n + 1)) fuel) (s.at ts) ds (s.at rest) (FunctionDecl.AllValid s.context.enclosingClass ds)
  | .nil, n, fuel + 1, s, _, _, hr =>
    Silent.yields ((atBodyEnd_of_next hr).seq silent_pure)
  | .cons h h', n, fuel + 1, s, hlen, hf, hr => by
    have hlen' := h.headed.length_lt
    have yfirst := h.yields n s hlen .method
    have ymore := h'.yields n fuel s (by omega) (by omega) hr
    exact (atBodyEnd_of_headed h.headed rfl).bind (yfirst.bind (ymore.then silent_pure))

end

/-- A whole program is read with the tree of its derivation, and reported if it is not valid. -/
theorem Declarations.yields_program {ts rest : List Token} {ss : List Stmt} :
    Declarations true ts ss rest → ∀ (n fuel : Nat) (s : ParserState), ts.length ≤ n → ts.length < fuel → rest = [] →
      Yields (program (inner (n + 1)) fuel) (s.at ts) ss (s.at [])
        (Stmt.AllValid s.context.inFunction s.context.enclosingClass ss)
  | .nil, n, fuel + 1, s, _, _, hr => by
    subst hr
    exact Silent.yields (silent_atEnd.seq silent_pure)
  | .cons h h', n, fuel + 1, s, hlen, hf, hr => by
    have hlen' := h.headed.length_lt
    have yfirst := h.yields n s hlen fun _ => h'.not_else (by simp [hr])
    have ymore := h'.yields_program n fuel s (by omega) (by omega) hr
    obtain ⟨t, more, rfl, -, -⟩ := h.headed
    exact silent_atEnd.bind (yfirst.bind (ymore.then silent_pure))

end Grammar

end Lox
