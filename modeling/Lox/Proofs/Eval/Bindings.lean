/-
  Lox.Proofs.Eval.Bindings — which names scopes bind, and when that changes. A scope keeps all
  the names that it has. It gains one only by a declaration that is run in it: an assignment
  needs a binding that is there, and a block or a call binds in a scope of its own. So whatever
  else is run leaves the names of the scopes that were there as they are (`Evaluation.gains`).

  This takes code in which no branch and no loop body is itself a declaration (`Tidy`).
-/

import Mathlib.Data.Set.Insert
import Lox.Proofs.Eval.Trace

namespace Lox

open Eval

/-! ## The names of scopes -/

namespace Scopes

variable {s s' s'' : Scopes} {A B : ScopeId → Bytes → Prop} {id holder : ScopeId} {name : Bytes}

def names (s : Scopes) (id : ScopeId) : Set Bytes := { name | (s.own? id name).isSome }

/-- Every scope is still there, in the same place and with all its names. It may have gained
those that are allowed. -/
def Gains (A : ScopeId → Bytes → Prop) (s s' : Scopes) : Prop :=
  ∀ (id : Nat) (scope : Scope), s.all[id]? = some scope →
    ∃ scope', s'.all[id]? = some scope' ∧ scope'.enclosing = scope.enclosing ∧
      ∀ name, (scope.bindings.contains name = true → scope'.bindings.contains name = true) ∧
        (scope'.bindings.contains name = true → scope.bindings.contains name = true ∨ A id name)

theorem Gains.refl (A : ScopeId → Bytes → Prop) (s : Scopes) : s.Gains A s :=
  fun _ scope h => ⟨scope, h, rfl, fun _ => ⟨fun hc => hc, .inl⟩⟩

/-- What is allowed later may be allowed only for scopes that are new by then. -/
theorem Gains.trans (h : s.Gains A s') (h' : s'.Gains B s'')
    (hBA : ∀ id name, id < s.all.size → B id name → A id name) : s.Gains A s'' := by
  intro id scope hs
  obtain ⟨scope', hs', henc, hnames⟩ := h id scope hs
  obtain ⟨scope'', hs'', henc', hnames'⟩ := h' id scope' hs'
  refine ⟨scope'', hs'', henc'.trans henc, fun name => ⟨fun hc => (hnames' name).1 ((hnames name).1 hc), fun hc => ?_⟩⟩
  rcases (hnames' name).2 hc with hc | hb
  · exact (hnames name).2 hc
  · exact .inr (hBA id name (Array.getElem?_eq_some_iff.mp hs).1 hb)

theorem Gains.mono (h : s.Gains A s') (hAB : ∀ id name, A id name → B id name) : s.Gains B s' := by
  intro id scope hs
  obtain ⟨scope', hs', henc, hnames⟩ := h id scope hs
  exact ⟨scope', hs', henc, fun name => ⟨(hnames name).1, fun hc => ((hnames name).2 hc).imp_right (hAB id name)⟩⟩

theorem gains_push (A : ScopeId → Bytes → Prop) (s : Scopes) (scope : Scope) : s.Gains A (s.push scope) :=
  fun _ old hold => ⟨old, push_keeps scope hold, rfl, fun _ => ⟨fun hc => hc, .inl⟩⟩

/-- A name is bound where it is bound already, or where that is allowed. -/
theorem gains_define (value : Value)
    (h : ∀ scope, s.all[holder]? = some scope → scope.bindings.contains name = true ∨ A holder name) :
    s.Gains A (s.define holder name value) := by
  intro id scope hid
  rw [getElem?_define]
  by_cases hh : holder = id
  · subst hh
    rw [if_pos rfl, hid]
    refine ⟨_, rfl, rfl, fun other => ?_⟩
    simp only [Table.contains, Table.get?_insert]
    by_cases ho : other = name
    · subst ho
      rw [if_pos rfl]
      exact ⟨fun _ => rfl, fun _ => h scope hid⟩
    · rw [if_neg ho]
      exact ⟨fun hc => hc, .inl⟩
  · rw [if_neg hh, hid]
    exact ⟨scope, rfl, rfl, fun _ => ⟨fun hc => hc, .inl⟩⟩

/-- The names of a scope are those in its table. -/
theorem mem_names {scope : Scope} (h : s.all[id]? = some scope) :
    name ∈ s.names id ↔ scope.bindings.contains name = true := by
  simp only [names, Set.mem_ofPred_eq, own?, h, Option.bind_some, Table.contains]

theorem Gains.names_subset (h : s.Gains A s') (id : ScopeId) : s.names id ⊆ s'.names id := by
  intro name hname
  obtain ⟨value, hown⟩ := Option.isSome_iff_exists.mp hname
  obtain ⟨scope, hscope, -⟩ := own?_eq_some.mp hown
  obtain ⟨scope', hscope', -, hnames⟩ := h id scope hscope
  exact (mem_names hscope').mpr ((hnames name).1 ((mem_names hscope).mp hname))

/-- A scope that was there before has gained nothing but what is allowed. -/
theorem Gains.subset_names (h : s.Gains A s') (hid : id < s.all.size) :
    s'.names id ⊆ s.names id ∪ { name | A id name } := by
  intro name hname
  have hscope : s.all[id]? = some s.all[id] := Array.getElem?_eq_getElem hid
  obtain ⟨scope', hscope', -, hnames⟩ := h id _ hscope
  exact ((hnames name).2 ((mem_names hscope').mp hname)).imp_left (mem_names hscope).mpr

/-- Where nothing is allowed, the names stay. -/
theorem Gains.names_eq (h : s.Gains A s') (hid : id < s.all.size) (hA : ∀ name, ¬ A id name) :
    s'.names id = s.names id := by
  refine Set.Subset.antisymm (fun name hname => ?_) (h.names_subset id)
  rcases h.subset_names hid hname with hname | ha
  · exact hname
  · exact absurd ha (hA name)

/-! ## Names that resolve -/

def Resolves (s : Scopes) (id : ScopeId) (name : Bytes) : Prop := (s.get? id name).isSome = true

theorem resolves_iff : s.Resolves id name ↔ ∃ holder, s.holder? id name = some holder := by
  unfold Resolves get?
  constructor
  · intro h
    obtain ⟨value, hvalue⟩ := Option.isSome_iff_exists.mp h
    obtain ⟨holder, hholder, -⟩ := Option.bind_eq_some_iff.mp hvalue
    exact ⟨holder, hholder⟩
  · rintro ⟨holder, hholder⟩
    obtain ⟨scope, hscope, hcontains⟩ := holderWithin?_contains hholder
    rw [hholder]
    simpa only [Option.bind_some, own?, hscope, Table.contains] using hcontains

theorem Gains.holderWithin? (h : s.Gains A s') {bound : Nat} (hholder : s.holderWithin? name bound id = some holder) :
    ∃ holder', s'.holderWithin? name bound id = some holder' := by
  induction bound generalizing id with
  | zero => cases hholder
  | succ bound ih =>
    rcases hid : s.all[id]? with _ | scope
    · rw [Scopes.holderWithin?, hid] at hholder
      cases hholder
    · obtain ⟨scope', hid', henc, hnames⟩ := h id scope hid
      rw [holderWithin?_succ s name bound hid] at hholder
      rw [holderWithin?_succ s' name bound hid', henc]
      by_cases hc' : scope'.bindings.contains name = true
      · exact ⟨id, if_pos hc'⟩
      · have hc : ¬ scope.bindings.contains name = true := fun hc => hc' ((hnames name).1 hc)
        rw [if_neg hc] at hholder
        obtain ⟨outer, houter, hrest⟩ := Option.bind_eq_some_iff.mp hholder
        rw [if_neg hc', houter]
        exact ih hrest

/-- Bindings may change and be shadowed, but a name that resolves does so from then on. -/
theorem Gains.resolves (h : s.Gains A s') (hname : s.Resolves id name) : s'.Resolves id name := by
  obtain ⟨holder, hholder⟩ := resolves_iff.mp hname
  exact resolves_iff.mpr (h.holderWithin? hholder)

end Scopes

/-! ## Tidy code -/

mutual

/-- Branches and loop bodies are no declarations, in functions and methods too. -/
def Stmt.Tidy : Stmt → Prop
  | .block body => Stmt.AllTidy body
  | .ifElse _ t none => t.declared? = none ∧ t.Tidy
  | .ifElse _ t (some e) => (t.declared? = none ∧ t.Tidy) ∧ e.declared? = none ∧ e.Tidy
  | .loop _ b => b.declared? = none ∧ b.Tidy
  | .function d => d.Tidy
  | .classDecl _ _ methods => FunctionDecl.AllTidy methods
  | _ => True

def FunctionDecl.Tidy : FunctionDecl → Prop
  | .mk _ _ body => Stmt.AllTidy body

def Stmt.AllTidy : List Stmt → Prop
  | [] => True
  | s :: ss => s.Tidy ∧ Stmt.AllTidy ss

def FunctionDecl.AllTidy : List FunctionDecl → Prop
  | [] => True
  | d :: ds => d.Tidy ∧ FunctionDecl.AllTidy ds

end

theorem FunctionDecl.Tidy.body {d : FunctionDecl} (h : d.Tidy) : Stmt.AllTidy d.body := by
  obtain ⟨name, params, body⟩ := d
  exact h

theorem FunctionDecl.allTidy_iff {ds : List FunctionDecl} : FunctionDecl.AllTidy ds ↔ ∀ d ∈ ds, d.Tidy := by
  induction ds with
  | nil => simp [FunctionDecl.AllTidy]
  | cons d ds ih => simp [FunctionDecl.AllTidy, ih]

structure Heap.Tidy (h : Heap) : Prop where
  functions : ∀ (id : Nat) (c : Closure), h.functions[id]? = some c → c.declaration.Tidy
  methods : ∀ (home : ClassId) (c : Closure), h.Declared home c → c.declaration.Tidy

def Task.Tidy : Task → Prop
  | .closure c _ => c.declaration.Tidy
  | .stmt s => s.Tidy
  | .stmts ss => Stmt.AllTidy ss
  | .loop _ b => b.declared? = none ∧ b.Tidy
  | .program ss => Stmt.AllTidy ss
  | _ => True

namespace Evaluation

variable {p e : Evaluation} {m m' : Machine} {pool : List Value}

theorem Acts.tidy (hp : p.task.Tidy) (h : p.Acts pool m m') (hm : m.heap.Tidy) : m'.heap.Tidy := by
  cases h with
  | bound hmethod _ =>
    refine ⟨fun id c hc => ?_, hm.methods⟩
    rcases push_cases hc with ⟨-, rfl⟩ | hold
    · have hdeclaration := hm.methods _ _ hmethod
      exact hdeclaration
    · exact hm.functions id c hold
  | functionMade =>
    refine ⟨fun id c hc => ?_, hm.methods⟩
    rcases push_cases hc with ⟨-, rfl⟩ | hold
    · exact hp
    · exact hm.functions id c hold
  | classMade =>
    refine ⟨hm.functions, fun home c hc => ?_⟩
    obtain ⟨info, name, hinfo, hget⟩ := hc
    rcases push_cases hinfo with ⟨-, rfl⟩ | hold
    · exact methodTable_all (P := fun c => c.declaration.Tidy) (FunctionDecl.allTidy_iff.mp hp) hget
    · exact hm.methods home c ⟨info, name, hold, hget⟩
  | _ => exact ⟨hm.functions, hm.methods⟩

theorem tidy_part (hp : p.task.Tidy) (h : Part p e) (hm : e.machine.heap.Tidy) : e.task.Tidy := by
  cases h with
  | function hc => exact hm.functions _ _ hc
  | initializer hobject hmethod hbind =>
    cases hobject
    cases hbind
    obtain ⟨home, -, hdeclared⟩ := Heap.methodWithin?_declared hmethod
    have hdeclaration := hm.methods home _ hdeclared
    exact hdeclaration
  | functionBody => exact hp.body
  | block => exact hp
  | @thenBranch _ _ t e _ _ _ _ _ =>
    cases e with
    | none => exact hp.2
    | some e => exact hp.1.2
  | elseBranch => exact hp.2.2
  | loop => exact hp
  | statement => exact hp.1
  | statements => exact hp.2
  | turn => exact hp.2
  | again => exact hp
  | topLevel => exact hp.1
  | rest => exact hp.2
  | _ => trivial

/-- Evaluation of tidy code makes tidy functions only. -/
theorem tidy_invariant : Invariant (fun p => p.task.Tidy) fun m _ => m.heap.Tidy :=
  ⟨fun hp hact hm => hact.tidy hp hm, fun hm _ => hm, fun hp hpart hm => tidy_part hp hpart hm⟩

end Evaluation

/-! ## What an evaluation binds -/

/-- A declaration of the name is run right in the scope of the task. -/
def Task.Binds (name : Bytes) : Task → Prop
  | .stmt s => s.declared? = some name
  | .stmts ss => ∃ s ∈ ss, s.declared? = some name
  | .program ss => ∃ s ∈ ss, s.declared? = some name
  | _ => False

namespace Evaluation

variable {p e : Evaluation} {m m' : Machine} {pool : List Value}

/-- What an evaluation may bind, and where. -/
def Binds (p : Evaluation) (id : ScopeId) (name : Bytes) : Prop := id = p.machine.scope ∧ p.task.Binds name

/-- A single change binds only what the evaluation may bind. -/
theorem Acts.gains (h : p.Acts pool m m') : m.heap.scopes.Gains p.Binds m'.heap.scopes := by
  cases h with
  | assigned hholder _ =>
    obtain ⟨scope, hscope, hcontains⟩ := Scopes.holderWithin?_contains hholder
    refine Scopes.gains_define _ fun scope' hscope' => .inl ?_
    cases hscope.symm.trans hscope'
    exact hcontains
  | declared hname _ => exact Scopes.gains_define _ fun _ _ => .inr ⟨rfl, hname⟩
  | received => exact Scopes.gains_push _ _ _
  | entered => exact Scopes.gains_push _ _ _
  | opened => exact Scopes.gains_push _ _ _
  | superKnown => exact Scopes.gains_push _ _ _
  | _ => exact .refl _ _

theorem Moves.gains (h : p.Moves pool m m') : m.heap.scopes.Gains p.Binds m'.heap.scopes := by
  induction h with
  | refl => exact .refl _ _
  | tail _ hact ih => exact ih.trans hact.gains fun _ _ _ ha => ha

/-- In the scopes that are there when it starts, a part binds nothing but what the whole may. -/
theorem binds_of_part (hp : p.task.Tidy) (h : Part p e) {id : ScopeId} {name : Bytes}
    (hid : id < p.machine.heap.scopes.all.size) (hb : e.Binds id name) : p.Binds id name := by
  obtain ⟨rfl, hb⟩ := hb
  cases h with
  | functionBody hscope =>
    cases hscope
    exact absurd hid (Nat.lt_irrefl _)
  | block hscope =>
    cases hscope
    exact absurd hid (Nat.lt_irrefl _)
  | @thenBranch _ _ t e _ _ _ _ _ =>
    have hnone : t.declared? = none := by
      cases e with
      | none => exact hp.1
      | some e => exact hp.1.1
    cases hnone.symm.trans hb
  | elseBranch => cases hp.2.1.symm.trans hb
  | turn => cases hp.1.symm.trans hb
  | statement => exact ⟨rfl, _, List.mem_cons_self, hb⟩
  | statements hs =>
    obtain ⟨s, hmem, hb⟩ := hb
    exact ⟨(steady_stmt hs).scope, s, List.mem_cons_of_mem _ hmem, hb⟩
  | topLevel => exact ⟨rfl, _, List.mem_cons_self, hb⟩
  | rest hs =>
    obtain ⟨s, hmem, hb⟩ := hb
    exact ⟨(steady_stmt hs).scope, s, List.mem_cons_of_mem _ hmem, hb⟩
  | _ => exact absurd hb id

/-- What an evaluation gains is what its own changes and its parts gain. -/
theorem Flows.gains {out : Except Halt (List Value) × Machine} {es : List Evaluation} {s : Scopes}
    (h : Flows p out pool m es) (hm : s.Gains p.Binds m.heap.scopes)
    (hparts : ∀ e ∈ es, e.machine.heap.scopes.Gains e.Binds e.final.heap.scopes)
    (hbinds : ∀ e ∈ es, ∀ id name, id < s.all.size → e.Binds id name → p.Binds id name) :
    s.Gains p.Binds out.2.heap.scopes := by
  have hmoves {pool : List Value} {m m' : Machine} (hm : s.Gains p.Binds m.heap.scopes) (h : p.Moves pool m m') :
      s.Gains p.Binds m'.heap.scopes := hm.trans h.gains fun _ _ _ hb => hb
  induction h with
  | ends hacts => exact hmoves hm hacts
  | halts hacts _ _ hback =>
    have hend := (hmoves hm hacts).trans (hparts _ List.mem_cons_self) (hbinds _ List.mem_cons_self)
    exact hmoves hend hback
  | goes hacts _ _ _ ih =>
    have hend := (hmoves hm hacts).trans (hparts _ List.mem_cons_self) (hbinds _ List.mem_cons_self)
    exact ih hend (fun e he => hparts e (List.mem_cons_of_mem _ he)) fun e he => hbinds e (List.mem_cons_of_mem _ he)
  | finds hacts _ _ ih => exact ih (hmoves hm hacts) hparts hbinds

/-- A tidy evaluation binds names in scopes of its own, and in the one where it stands those
that its statements declare; the scopes that were there keep what they had. -/
theorem gains (h : ∀ e, Visits p e → e.task.Tidy) : p.machine.heap.scopes.Gains p.Binds p.final.heap.scopes := by
  induction p using parts_induction with
  | h p ih =>
    refine p.flows.gains (.refl _ _) (fun e he => ?_) fun e he id name hid hb => ?_
    · have hpart := mem_parts.mp he
      exact ih e hpart fun e' hvisits => h e' ((Visits.here.part hpart).trans hvisits)
    · exact binds_of_part (h p .here) (mem_parts.mp he) hid hb

/-- In the course of any evaluation, scopes keep their names. -/
theorem between_gains (p : Evaluation) :
    Between (fun m m' => m.heap.scopes.Gains (fun _ _ => True) m'.heap.scopes) p.machine p.trace p.final :=
  trace_between (fun m => .refl _ m.heap.scopes) (fun _ _ _ h h' => h.trans h' fun _ _ _ _ => trivial)
    fun _ _ _ _ hact => hact.gains.mono fun _ _ _ => trivial

end Evaluation

end Lox
