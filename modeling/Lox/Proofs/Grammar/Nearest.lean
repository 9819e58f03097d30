/-
  Lox.Proofs.Grammar.Nearest — a program in which some `else` belongs to a farther `if` can
  be derived with each `else` at the nearest one (`Declarations.toNearest`). The tree is
  another then, but a valid one if the first was.
-/

import Lox.Proofs.Grammar
import Lox.Proofs.Valid

namespace Lox.Grammar

mutual

/-- An open statement takes the `else` that follows it to its own last `if`. -/
theorem Statement.attach {isOpen elseOpen : Bool} {ts ts' after rest : List Token} {keyword : Token} {st elseBranch : Stmt}
    (hk' : keyword.kind = .else_) (helse : Statement true elseOpen ts' elseBranch rest) :
    Statement true isOpen ts st after → isOpen = true → after = keyword :: ts' →
      ∃ isOpen' st', Statement true isOpen' ts st' rest ∧
        ∀ inFunction enclosing, st'.Valid inFunction enclosing ↔
          st.Valid inFunction enclosing ∧ elseBranch.Valid inFunction enclosing
  | .expression _ => nofun
  | .print _ _ _ => nofun
  | .ret _ _ _ => nofun
  | .block _ _ _ => nofun
  | .forLoop hk ho hinit hcond hsemi hinc hc hbody => fun hopen hafter => by
    obtain ⟨isOpen', body', hbody', hv⟩ := Statement.attach hk' helse hbody hopen hafter
    refine ⟨isOpen', _, .forLoop hk ho hinit hcond hsemi hinc hc hbody', fun inFunction enclosing => ?_⟩
    simp only [Stmt.valid_counting, hv, and_assoc]
  | .whileLoop hk ho hcond hc hbody => fun hopen hafter => by
    obtain ⟨isOpen', body', hbody', hv⟩ := Statement.attach hk' helse hbody hopen hafter
    refine ⟨isOpen', _, .whileLoop hk ho hcond hc hbody', fun inFunction enclosing => ?_⟩
    simp only [Stmt.Valid, hv, and_assoc]
  | @Statement.ifOnly _ bodyOpen _ _ _ _ _ _ _ _ hk ho hcond hc hbody => fun _ hafter => by
    by_cases hb : bodyOpen = true
    · obtain ⟨_, body', hbody', hv⟩ := Statement.attach hk' helse hbody hb hafter
      refine ⟨true, _, .ifOnly hk ho hcond hc hbody', fun inFunction enclosing => ?_⟩
      simp only [Stmt.Valid, hv, and_assoc]
    · subst hafter
      refine ⟨elseOpen, _, .ifElse hk ho hcond hc hbody (fun _ => Bool.eq_false_iff.mpr hb) hk' helse, ?_⟩
      intro inFunction enclosing
      simp only [Stmt.Valid, and_assoc]
  | .ifElse hk ho hcond hc hbody hclosed hk'' hlast => fun hopen hafter => by
    obtain ⟨isOpen', last', hlast', hv⟩ := Statement.attach hk' helse hlast hopen hafter
    refine ⟨isOpen', _, .ifElse hk ho hcond hc hbody hclosed hk'' hlast', fun inFunction enclosing => ?_⟩
    simp only [Stmt.Valid, hv, and_assoc]

/-- Whichever `if` each `else` was given to, the tokens also have a tree with the nearest ones, and
it is valid where the other is. -/
theorem Statement.toNearest {nearest isOpen : Bool} {ts rest : List Token} {st : Stmt} :
    Statement nearest isOpen ts st rest →
      ∃ isOpen' st', Statement true isOpen' ts st' rest ∧
        ∀ inFunction enclosing, st'.Valid inFunction enclosing ↔ st.Valid inFunction enclosing
  | .expression h => ⟨false, _, .expression h, fun _ _ => Iff.rfl⟩
  | .forLoop hk ho hinit hcond hsemi hinc hc hbody => by
    obtain ⟨isOpen', body', hbody', hv⟩ := hbody.toNearest
    refine ⟨isOpen', _, .forLoop hk ho hinit hcond hsemi hinc hc hbody', fun inFunction enclosing => ?_⟩
    simp only [Stmt.valid_counting, hv]
  | .ifOnly hk ho hcond hc hbody => by
    obtain ⟨_, body', hbody', hv⟩ := hbody.toNearest
    refine ⟨true, _, .ifOnly hk ho hcond hc hbody', fun inFunction enclosing => ?_⟩
    simp only [Stmt.Valid, hv]
  | .ifElse hk ho hcond hc hbody _ hk' helse => by
    obtain ⟨bodyOpen, body', hbody', hv⟩ := hbody.toNearest
    obtain ⟨elseOpen, else', helse', hv'⟩ := helse.toNearest
    cases bodyOpen with
    | false =>
      refine ⟨elseOpen, _, .ifElse hk ho hcond hc hbody' (fun _ => rfl) hk' helse', fun inFunction enclosing => ?_⟩
      simp only [Stmt.Valid, hv, hv']
    | true =>
      -- The `else` goes to an `if` at the end of the branch.
      obtain ⟨_, whole, hwhole, hv''⟩ := Statement.attach hk' helse' hbody' rfl rfl
      refine ⟨true, _, .ifOnly hk ho hcond hc hwhole, fun inFunction enclosing => ?_⟩
      simp only [Stmt.Valid, hv, hv', hv'']
  | .print hk h hsemi => ⟨false, _, .print hk h hsemi, fun _ _ => Iff.rfl⟩
  | .ret hk h hsemi => ⟨false, _, .ret hk h hsemi, fun _ _ => Iff.rfl⟩
  | .whileLoop hk ho hcond hc hbody => by
    obtain ⟨isOpen', body', hbody', hv⟩ := hbody.toNearest
    refine ⟨isOpen', _, .whileLoop hk ho hcond hc hbody', fun inFunction enclosing => ?_⟩
    simp only [Stmt.Valid, hv]
  | .block ho hbody hc => by
    obtain ⟨body', hbody', hv⟩ := hbody.toNearest
    exact ⟨false, _, .block ho hbody' hc, hv⟩

theorem Declaration.toNearest {nearest isOpen : Bool} {ts rest : List Token} {d : Stmt} :
    Declaration nearest isOpen ts d rest →
      ∃ isOpen' d', Declaration true isOpen' ts d' rest ∧
        ∀ inFunction enclosing, d'.Valid inFunction enclosing ↔ d.Valid inFunction enclosing
  | .classDecl hk hn hparent ho hmethods hc => by
    obtain ⟨methods', hmethods', hv⟩ := hmethods.toNearest
    refine ⟨false, _, .classDecl hk hn hparent ho hmethods' hc, fun inFunction enclosing => ?_⟩
    simp only [Stmt.Valid, hv]
  | .function hk h => by
    obtain ⟨d', h', hv⟩ := h.toNearest
    exact ⟨false, _, .function hk h', fun _ => hv⟩
  | .var h => ⟨false, _, .var h, fun _ _ => Iff.rfl⟩
  | .statement h => by
    obtain ⟨isOpen', st', h', hv⟩ := h.toNearest
    exact ⟨isOpen', st', .statement h', hv⟩

theorem Declarations.toNearest {nearest : Bool} {ts rest : List Token} {ss : List Stmt} :
    Declarations nearest ts ss rest →
      ∃ ss', Declarations true ts ss' rest ∧
        ∀ inFunction enclosing, Stmt.AllValid inFunction enclosing ss' ↔ Stmt.AllValid inFunction enclosing ss
  | .nil => ⟨[], .nil, fun _ _ => Iff.rfl⟩
  | .cons h h' => by
    obtain ⟨_, d', hd', hv⟩ := h.toNearest
    obtain ⟨ss', hss', hv'⟩ := h'.toNearest
    refine ⟨d' :: ss', .cons hd' hss', fun inFunction enclosing => ?_⟩
    simp only [Stmt.AllValid, hv, hv']

theorem Function.toNearest {nearest : Bool} {ts rest : List Token} {d : FunctionDecl} :
    Function nearest ts d rest →
      ∃ d', Function true ts d' rest ∧ ∀ enclosing, d'.Valid enclosing ↔ d.Valid enclosing
  | .mk hn ho hparams hc hb hbody hb' => by
    obtain ⟨body', hbody', hv⟩ := hbody.toNearest
    refine ⟨_, .mk hn ho hparams hc hb hbody' hb', fun enclosing => ?_⟩
    simp only [FunctionDecl.Valid, hv]

theorem Methods.toNearest {nearest : Bool} {ts rest : List Token} {ds : List FunctionDecl} :
    Methods nearest ts ds rest →
      ∃ ds', Methods true ts ds' rest ∧
        ∀ enclosing, FunctionDecl.AllValid enclosing ds' ↔ FunctionDecl.AllValid enclosing ds
  | .nil => ⟨[], .nil, fun _ => Iff.rfl⟩
  | .cons h h' => by
    obtain ⟨d', hd', hv⟩ := h.toNearest
    obtain ⟨ds', hds', hv'⟩ := h'.toNearest
    refine ⟨d' :: ds', .cons hd' hds', fun enclosing => ?_⟩
    simp only [FunctionDecl.AllValid, hv, hv']

end

end Lox.Grammar
