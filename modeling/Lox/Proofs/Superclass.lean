/-
  Lox.Proofs.Superclass — the superclass that code speaks of is that of the class it was
  written in. Wherever a run gets to such a place, there is one class that the place lies in,
  and the method is looked for from the superclass on that this class was made with
  (`super_starts_above_home`). Neither the class of the receiver nor what the names of the
  classes have come to stand for plays a part in it.
-/

import Lox.Proofs.Eval.Orderly
import Lox.Proofs.StaticChecks

namespace Lox

open Eval

/-! ## Parts of orderly evaluations -/

def Evaluation.Orderly : Evaluation → Prop
  | ⟨_, .expr e, m⟩ => ∃ enclosing, m.Ready enclosing e.supers ∧ e.Valid enclosing ∧ e.Plain
  | ⟨_, .exprs es, m⟩ => ∃ enclosing, m.Ready enclosing (Expr.allSupers es) ∧ Expr.AllValid enclosing es ∧ Expr.AllPlain es
  | ⟨_, .call _ args, m⟩ => m.Neat ∧ ∀ v ∈ args, Yields v m
  | ⟨_, .closure c args, m⟩ => m.Neat ∧ c.Sound m.heap.scopes ∧ m.heap.Houses c.scope c.declaration.supers ∧
      ∀ v ∈ args, Yields v m
  | ⟨_, .stmt s, m⟩ => ∃ inFunction enclosing, m.Ready enclosing s.supers ∧ s.Valid inFunction enclosing ∧ s.Plain
  | ⟨_, .stmts ss, m⟩ =>
    ∃ inFunction enclosing, m.Ready enclosing (Stmt.allSupers ss) ∧ Stmt.AllValid inFunction enclosing ss ∧ Stmt.AllPlain ss
  | ⟨_, .loop c b, m⟩ => ∃ inFunction enclosing, m.Ready enclosing (c.supers ++ b.supers) ∧
      (c.Valid enclosing ∧ b.Valid inFunction enclosing) ∧ c.Plain ∧ b.Plain
  | ⟨_, .program ss, m⟩ => m.Ready .outside (Stmt.allSupers ss) ∧ ValidProgram ss ∧ Stmt.AllPlain ss

theorem Evaluation.Orderly.neat {e : Evaluation} (h : e.Orderly) : e.machine.Neat := by
  obtain ⟨n, task, m⟩ := e
  cases task with
  | expr e =>
    obtain ⟨_, hm, -⟩ := h
    exact hm.neat
  | exprs es =>
    obtain ⟨_, hm, -⟩ := h
    exact hm.neat
  | call callee args => exact h.1
  | closure c args => exact h.1
  | stmt s =>
    obtain ⟨_, _, hm, -⟩ := h
    exact hm.neat
  | stmts ss =>
    obtain ⟨_, _, hm, -⟩ := h
    exact hm.neat
  | loop c b =>
    obtain ⟨_, _, hm, -⟩ := h
    exact hm.neat
  | program ss => exact h.1.neat

/-- Each part starts in an orderly machine, and nothing has been lost on the way to it. -/
theorem Part.orderly {e e' : Evaluation} (hpart : Part e e') (h : e.Orderly) :
    e'.Orderly ∧ e.machine.heap.Kept e'.machine.heap := by
  cases hpart with
  | assigned =>
    obtain ⟨c, hm, hv, hp⟩ := h
    exact ⟨⟨c, hm, hv, hp.2⟩, .refl _⟩
  | operand => exact ⟨h, .refl _⟩
  | left =>
    obtain ⟨c, hm, hv, hp⟩ := h
    exact ⟨⟨c, hm.left, hv.1, hp.1⟩, .refl _⟩
  | right hl =>
    obtain ⟨c, hm, hv, hp⟩ := h
    have honward := (((orders _).expr hm.left hv.1 hp.1).onward hl).1
    exact ⟨⟨c, hm.right.onward honward, hv.2, hp.2⟩, honward.kept⟩
  | decider =>
    obtain ⟨c, hm, hv, hp⟩ := h
    exact ⟨⟨c, hm.left, hv.1, hp.1⟩, .refl _⟩
  | undecided hl _ =>
    obtain ⟨c, hm, hv, hp⟩ := h
    have honward := (((orders _).expr hm.left hv.1 hp.1).onward hl).1
    exact ⟨⟨c, hm.right.onward honward, hv.2, hp.2⟩, honward.kept⟩
  | callee =>
    obtain ⟨c, hm, hv, hp⟩ := h
    exact ⟨⟨c, hm.left, hv.1, hp.1⟩, .refl _⟩
  | arguments hf =>
    obtain ⟨c, hm, hv, hp⟩ := h
    have honward := (((orders _).expr hm.left hv.1 hp.1).onward hf).1
    exact ⟨⟨c, hm.right.onward honward, hv.2.1, hp.2⟩, honward.kept⟩
  | invocation hf hargs hcheck =>
    obtain ⟨c, hm, hv, hp⟩ := h
    have h₁ := (((orders _).expr hm.left hv.1 hp.1).onward hf).1
    obtain ⟨h₂, hy⟩ := ((orders _).exprs (hm.right.onward h₁) hv.2.1 hp.2).onward hargs
    have h₃ := ((checkCall_orderly h₂.neat _ _ _).onward hcheck).1
    exact ⟨⟨⟨h₃.neat.sound, h₃.neat.orderly⟩, fun v hmem => Value.Known.kept (hy v hmem) h₃.kept⟩, (h₁.trans (h₂.trans h₃)).kept⟩
  | owner => exact ⟨h, .refl _⟩
  | target =>
    obtain ⟨c, hm, hv, hp⟩ := h
    exact ⟨⟨c, hm.left, hv.1, hp.1⟩, .refl _⟩
  | fieldValue ho =>
    obtain ⟨c, hm, hv, hp⟩ := h
    have honward := (((orders _).expr hm.left hv.1 hp.1).onward ho).1
    exact ⟨⟨c, hm.right.onward honward, hv.2, hp.2⟩, honward.kept⟩
  | grouped => exact ⟨h, .refl _⟩
  | first =>
    obtain ⟨c, hm, hv, hp⟩ := h
    exact ⟨⟨c, hm.left, hv.1, hp.1⟩, .refl _⟩
  | others he =>
    obtain ⟨c, hm, hv, hp⟩ := h
    have honward := (((orders _).expr hm.left hv.1 hp.1).onward he).1
    exact ⟨⟨c, hm.right.onward honward, hv.2, hp.2⟩, honward.kept⟩
  | function hc => exact ⟨⟨h.1, h.1.sound.functions _ _ hc, h.1.orderly.functions _ _ hc, h.2⟩, .refl _⟩
  | initializer ho hmethod hbind =>
    obtain ⟨h₁, hobject⟩ := (newObject_orderly h.1 _).onward ho
    obtain ⟨home, hdescends, hdeclared⟩ := Heap.methodWithin?_declared hmethod
    obtain ⟨h₂, hc⟩ := (bindReceiver_orderly h₁.neat hdeclared hobject hdescends).onward hbind
    exact ⟨⟨h₂.neat, hc.1, hc.2, fun v hmem => ((h.2 v hmem).onward h₁).onward h₂⟩, (h₁.trans h₂).kept⟩
  | @functionBody _ c args _ _ _ hscope =>
    obtain ⟨hm, ⟨enclosing, hserves, hv, hp⟩, hh, ha⟩ := h
    have honward := ((newScope_orderly hm hserves.exists_scope (arguments_known ha _)).onward hscope).1
    have hbody := body_ready hm hserves hp hh ha hscope
    obtain ⟨⟨name, params, body⟩, outer, isInitializer⟩ := c
    exact ⟨⟨true, enclosing, hbody, hv.2, hp.2.2⟩, honward.kept⟩
  | discarded =>
    obtain ⟨_, c, hm, hv, hp⟩ := h
    exact ⟨⟨c, hm, hv, hp⟩, .refl _⟩
  | printed =>
    obtain ⟨_, c, hm, hv, hp⟩ := h
    exact ⟨⟨c, hm, hv, hp⟩, .refl _⟩
  | initial =>
    obtain ⟨_, c, hm, hv, hp⟩ := h
    exact ⟨⟨c, hm, hv _ rfl, hp.2 _ rfl⟩, .refl _⟩
  | block hscope =>
    obtain ⟨inFunction, c, hm, hv, hp⟩ := h
    exact ⟨⟨inFunction, c, block_ready hm hscope, hv, hp⟩, ((emptyScope_orderly hm).onward hscope).1.kept⟩
  | @condition _ _ _ e _ =>
    obtain ⟨_, c, hm, hv, hp⟩ := h
    cases e with
    | none => exact ⟨⟨c, hm.left, hv.1, hp.1⟩, .refl _⟩
    | some _ => exact ⟨⟨c, hm.left, hv.1, hp.1⟩, .refl _⟩
  | @thenBranch _ _ _ e _ _ _ hc _ =>
    obtain ⟨inFunction, c, hm, hv, hp⟩ := h
    cases e with
    | none =>
      have honward := (((orders _).expr hm.left hv.1 hp.1).onward hc).1
      exact ⟨⟨inFunction, c, hm.right.onward honward, hv.2, hp.2⟩, honward.kept⟩
    | some _ =>
      have honward := (((orders _).expr hm.left hv.1 hp.1).onward hc).1
      exact ⟨⟨inFunction, c, hm.right.left.onward honward, hv.2.1, hp.2.1⟩, honward.kept⟩
  | elseBranch hc _ =>
    obtain ⟨inFunction, c, hm, hv, hp⟩ := h
    have honward := (((orders _).expr hm.left hv.1 hp.1).onward hc).1
    exact ⟨⟨inFunction, c, hm.right.right.onward honward, hv.2.2, hp.2.2⟩, honward.kept⟩
  | loop => exact ⟨h, .refl _⟩
  | returned =>
    obtain ⟨_, c, hm, hv, hp⟩ := h
    exact ⟨⟨c, hm, hv.2 _ rfl, hp _ rfl⟩, .refl _⟩
  | statement =>
    obtain ⟨inFunction, c, hm, hv, hp⟩ := h
    exact ⟨⟨inFunction, c, hm.left, hv.1, hp.1⟩, .refl _⟩
  | statements hs =>
    obtain ⟨inFunction, c, hm, hv, hp⟩ := h
    have honward := (((orders _).stmt hm.left hv.1 hp.1).onward hs).1
    exact ⟨⟨inFunction, c, hm.right.onward honward, hv.2, hp.2⟩, honward.kept⟩
  | test =>
    obtain ⟨_, c, hm, hv, hp⟩ := h
    exact ⟨⟨c, hm.left, hv.1, hp.1⟩, .refl _⟩
  | turn hc _ =>
    obtain ⟨inFunction, c, hm, hv, hp⟩ := h
    have honward := (((orders _).expr hm.left hv.1 hp.1).onward hc).1
    exact ⟨⟨inFunction, c, hm.right.onward honward, hv.2, hp.2⟩, honward.kept⟩
  | again hc _ hb =>
    obtain ⟨inFunction, c, hm, hv, hp⟩ := h
    have h₁ := (((orders _).expr hm.left hv.1 hp.1).onward hc).1
    have h₂ := (((orders _).stmt (hm.right.onward h₁) hv.2 hp.2).onward hb).1
    exact ⟨⟨inFunction, c, (hm.onward h₁).onward h₂, hv, hp⟩, (h₁.trans h₂).kept⟩
  | topLevel => exact ⟨⟨false, .outside, h.1.left, h.2.1.1, h.2.2.1⟩, .refl _⟩
  | rest hs =>
    have honward := (((orders _).stmt h.1.left h.2.1.1 h.2.2.1).onward hs).1
    exact ⟨⟨h.1.right.onward honward, h.2.1.2, h.2.2.2⟩, honward.kept⟩

/-- By induction on the way down, each part of which keeps the heap orderly. -/
theorem Visits.orderly {e e' : Evaluation} (h : Visits e e') (he : e.Orderly) :
    e'.Orderly ∧ e.machine.heap.Kept e'.machine.heap := by
  induction h with
  | here => exact ⟨he, .refl _⟩
  | part _ hpart ih =>
    obtain ⟨ho, hk⟩ := hpart.orderly ih.1
    exact ⟨ho, ih.2.trans hk⟩

/-! ## Sessions -/

/-- What the first session has become by some runs. -/
inductive Session.Before (earlier : Session) : Session → Prop
  | here : Before earlier earlier
  | run {session : Session} (fuel : Nat) (clock : Nat → Float) (source : Bytes) :
      Before earlier session → Before earlier (session.run fuel clock source).2

theorem initial_orderly : Heap.initial.Orderly := by
  have hno : ∀ id : Nat, Heap.initial.classes[id]? = none := fun _ => by simp [Heap.initial]
  refine ⟨fun id name value hown => ?_, fun id object name value hobject => ?_, fun id info parent hinfo => ?_,
    fun id info name c parent hinfo => ?_, ?_, fun id info name c hinfo => ?_, fun id c hc => ?_⟩
  · -- The only binding is that of the clock.
    cases id with
    | zero =>
      have hget : (Table.empty.insert Heap.clockName Value.clock).get? name = some value := hown
      rw [Table.get?_insert] at hget
      split at hget
      · cases hget
        intro id heq
        cases heq
      · cases hget
    | succ id => simp [Scopes.own?, Heap.initial] at hown
  · simp [Heap.initial] at hobject
  · rw [hno] at hinfo
    cases hinfo
  · rw [hno] at hinfo
    cases hinfo
  · rintro id id' c c' value ⟨info, name, hinfo, -⟩
    rw [hno] at hinfo
    cases hinfo
  · rw [hno] at hinfo
    cases hinfo
  · simp [Heap.initial] at hc

theorem initial_ready (clock : Nat → Float) : Machine.Ready { heap := Heap.initial, clock } .outside [] :=
  ⟨initial_stands clock, initial_orderly, rfl, fun hne => absurd rfl hne⟩

theorem execProgram_orderly {fuel : Nat} {program : List Stmt} {m : Machine}
    (h : m.Ready .outside (Stmt.allSupers program)) (hv : ValidProgram program) (hp : Stmt.AllPlain program) :
    Orderly (execProgram fuel program) m fun _ _ => True := by
  induction program generalizing m with
  | nil => exact .pure h.neat trivial
  | cons s rest ih =>
    exact ((orders fuel).stmt h.left hv.1 hp.1).bind fun _ m₁ h₁ _ => ih (h.right.onward h₁) hv.2 hp.2

namespace Session

variable {session : Session} {source : Bytes}

/-- A whole program speaks of no superclass outside of its classes. -/
theorem ready_program {m : Machine} (h : m.Ready .outside []) (hsource : (analyze source).reports = []) :
    m.Ready .outside (Stmt.allSupers (analyze source).statements) := by
  rw [Stmt.allSupers_of_valid (by decide) (analyze_valid hsource).1]
  exact h

theorem outcome_onward (fuel : Nat) {clock : Nat → Float}
    (h : Machine.Ready { heap := session.heap, clock } .outside []) (hsource : (analyze source).reports = []) :
    Machine.Onward { heap := session.heap, clock } (session.outcome fuel clock source).2 := by
  obtain ⟨hv, hp⟩ := analyze_valid hsource
  exact (execProgram_orderly (ready_program h hsource) hv hp).leaves rfl

theorem Reachable.ready (h : session.Reachable) (clock : Nat → Float) :
    Machine.Ready { heap := session.heap, clock } .outside [] := by
  induction h generalizing clock with
  | fresh => exact initial_ready clock
  | reset => exact initial_ready clock
  | @run session fuel clock' source _ ih =>
    by_cases hsource : (analyze source).reports = []
    · have hready := (ih clock').onward (outcome_onward fuel (ih clock') hsource)
      have hscope : (session.outcome fuel clock' source).2.scope = Heap.globals :=
        (outcome_onward fuel (ih clock') hsource).later.scope
      have hserves := hready.stands.serves
      have hclear := hready.clear
      rw [hscope] at hserves hclear
      rw [(session.run_shows fuel clock' hsource).2.2.2]
      exact ⟨⟨hready.stands.sound, hserves⟩, hready.orderly, hclear, fun hne => absurd rfl hne⟩
    · rw [session.run_of_fault fuel clock' hsource]
      exact ih clock

/-- After a run, all classes, the classes of objects and the enclosing scopes are as they were. -/
theorem run_kept (h : session.Reachable) (fuel : Nat) (clock : Nat → Float) (source : Bytes) :
    session.heap.Kept (session.run fuel clock source).2.heap := by
  by_cases hsource : (analyze source).reports = []
  · rw [(session.run_shows fuel clock hsource).2.2.2]
    exact (outcome_onward fuel (h.ready clock) hsource).kept
  · rw [session.run_of_fault fuel clock hsource]
    exact .refl _

theorem Before.reachable {earlier : Session} (hb : earlier.Before session) (h : earlier.Reachable) : session.Reachable := by
  induction hb with
  | here => exact h
  | run fuel clock source _ ih => exact .run fuel clock source ih

theorem Before.kept {earlier : Session} (hb : earlier.Before session) (h : earlier.Reachable) :
    earlier.heap.Kept session.heap := by
  induction hb with
  | here => exact .refl _
  | run fuel clock source hb ih => exact ih.trans (run_kept (hb.reachable h) fuel clock source)

theorem Reachable.evaluation_orderly (h : session.Reachable) (fuel : Nat) (clock : Nat → Float)
    (hsource : (analyze source).reports = []) : (session.evaluation fuel clock source).Orderly :=
  ⟨ready_program (h.ready clock) hsource, analyze_valid hsource⟩

end Session

/-! ## Speaking of a superclass -/

/-- What is made of an expression that speaks of the superclass, where a class is its home. -/
structure Resolved (m : Machine) (n line : Nat) (method : Name) (home : ClassId) (info : ClassInfo) : Prop where
  /-- The place lies in a method of the home, and in no other class. -/
  inside : m.heap.LiesIn home m.scope
  alone : ∀ other, m.heap.LiesIn other m.scope → other = home
  speaks : m.heap.Speaks home (line, method)
  made : m.heap.classes[home]? = some info
  /-- The method is looked for from the superclass of the home on, and bound to the receiver that is known in
  the place, an object of the home or of a class below it. -/
  found : ∃ parent receiver object, info.superclass = some parent ∧
    evalExpr (n + 1) (.this line) m = (.ok (.object receiver), m) ∧
    m.heap.objects[receiver]? = some object ∧ m.heap.Descends object.classId home ∧
    evalExpr (n + 1) (.super line method) m =
      (match m.heap.method? parent method.text with
        | some found => bindMethod found receiver
        | none => fail method.line (.undefinedProperty method.text)) m

/-- Wherever a run gets to an expression that speaks of the superclass, it is resolved by the
class that the place lies in. That class is as it was made: it has been no other in the
sessions before, nor on the way through this run. -/
theorem super_starts_above_home {session : Session} (h : session.Reachable) (fuel : Nat) (clock : Nat → Float)
    (source : Bytes) (hsource : (analyze source).reports = []) {n line : Nat} {method : Name} {m : Machine}
    (hvisits : Visits (session.evaluation fuel clock source) ⟨n + 1, .expr (.super line method), m⟩) :
    ∃ home info, Resolved m n line method home info ∧
      (∀ earlier : Session, earlier.Reachable → earlier.Before session →
        ∀ info', earlier.heap.classes[home]? = some info' → info' = info) ∧
      ∀ e, Visits (session.evaluation fuel clock source) e → Visits e ⟨n + 1, .expr (.super line method), m⟩ →
        ∀ info', e.machine.heap.classes[home]? = some info' → info' = info := by
  have hstart := h.evaluation_orderly fuel clock hsource
  obtain ⟨⟨enclosing, hready, -, -⟩, hkept⟩ := hvisits.orderly hstart
  obtain ⟨home, ⟨hinside, ⟨info, parent, hinfo, hparent, hsuper⟩, receiver, object, hthis, hobject, hdescends⟩, hspeaks⟩ :=
    hready.houses (List.cons_ne_nil _ _)
  refine ⟨home, info, ⟨hinside, fun other hother => ?_, hspeaks _ List.mem_cons_self, hinfo, parent, receiver, object, hparent,
    lookup_run hthis, hobject, hdescends, superMethod_home hsuper hthis line method⟩,
    fun earlier hearlier hbefore info' hinfo' => ?_, fun e hbefore hafter info' hinfo' => ?_⟩
  · exact hready.orderly.home_unique hinside hother hinfo hparent
  · have hnow := ((hbefore.kept hearlier).trans hkept).classes home info' hinfo'
    exact Option.some.inj (hnow.symm.trans hinfo)
  · have hnow := (hafter.orderly (hbefore.orderly hstart).1).2.classes home info' hinfo'
    exact Option.some.inj (hnow.symm.trans hinfo)

/-- What an evaluation goes into last: the last statement of a program, and the body of a
function that is called. -/
def Evaluation.entered? : Evaluation → Option Evaluation
  | ⟨n, .program [s], m⟩ => some ⟨n, .stmt s, m⟩
  | ⟨n, .program (s :: ss), m⟩ =>
    match execStmt n s m with
    | (.ok _, m') => some ⟨n, .program ss, m'⟩
    | _ => none
  | ⟨n + 1, .stmt (.expression e), m⟩ => some ⟨n, .expr e, m⟩
  | ⟨n + 1, .expr (.call f args line), m⟩ =>
    match evalExpr n f m with
    | (.ok v, m₁) =>
      match evalExprs n args m₁ with
      | (.ok vs, m₂) =>
        match checkCall v vs.length line m₂ with
        | (.ok (), m₃) => some ⟨n, .call v vs, { m₃ with depth := m₃.depth + 1 }⟩
        | _ => none
      | _ => none
    | _ => none
  | ⟨n + 1, .call (.function id) args, m⟩ => m.heap.functions[id]?.map fun c => ⟨n, .closure c args, m⟩
  | ⟨n + 1, .closure c args, m⟩ =>
    match newScope c.scope (Scopes.bindAll Table.empty c.declaration.parameters args) m with
    | (.ok scope, m') => some ⟨n, .stmts c.declaration.body, { m' with scope }⟩
    | _ => none
  | ⟨n + 1, .stmts (s :: _), m⟩ => some ⟨n, .stmt s, m⟩
  | _ => none

theorem Evaluation.entered?_part {e e' : Evaluation} (h : e.entered? = some e') : Part e e' := by
  unfold Evaluation.entered? at h
  split at h
  · cases h
    exact .topLevel
  · split at h
    · cases h
      exact .rest ‹_›
    · cases h
  · cases h
    exact .discarded
  · split at h
    · split at h
      · split at h
        · cases h
          exact .invocation ‹_› ‹_› ‹_›
        · cases h
      · cases h
    · cases h
  · obtain ⟨c, hc, rfl⟩ := Option.map_eq_some_iff.mp h
    exact .function hc
  · split at h
    · cases h
      exact .functionBody ‹_›
    · cases h
  · cases h
    exact .statement
  · cases h

def Evaluation.entered (e : Evaluation) : Nat → Option Evaluation
  | 0 => some e
  | k + 1 => (e.entered k).bind Evaluation.entered?

theorem Evaluation.entered_visits {e e' : Evaluation} {k : Nat} (h : e.entered k = some e') : Visits e e' := by
  induction k generalizing e' with
  | zero =>
    cases h
    exact .here
  | succ k ih =>
    obtain ⟨e₁, h₁, h₂⟩ := Option.bind_eq_some_iff.mp h
    exact .part (ih h₁) (Evaluation.entered?_part h₂)

def Evaluation.receivers? : Evaluation → Option (List Bytes)
  | ⟨_ + 1, .expr (.super _ _), m⟩ => some (m.heap.objects.toList.map fun o => m.heap.className o.classId)
  | _ => none

/-- The names of two classes are taken away from them before a method of the one asks for that of the other,
for an object of a third class. -/
def renamedText : Bytes :=
  utf8 "class A{m(){}} class B<A{m(){super.m;}} class C<B{} A=nil; B=nil; C().m();"

/-- The only object is of the third class, and the method is resolved by another. -/
theorem super_starts_above_home_renamed :
    (analyze renamedText).reports = [] ∧ ∃ n line method m home info,
      Visits (Session.fresh.evaluation 40 (fun _ => 0) renamedText) ⟨n + 1, .expr (.super line method), m⟩ ∧
      (m.heap.objects.toList.map fun o => m.heap.className o.classId) = [utf8 "C"] ∧
      Resolved m n line method home info := by
  have hsource : (analyze renamedText).reports = [] := by decide +kernel
  have hentered : ((Session.fresh.evaluation 40 (fun _ => 0) renamedText).entered 12).bind Evaluation.receivers? =
      some [utf8 "C"] := by decide +kernel
  obtain ⟨e, he, hreceivers⟩ := Option.bind_eq_some_iff.mp hentered
  have hvisits := Evaluation.entered_visits he
  unfold Evaluation.receivers? at hreceivers
  split at hreceivers
  · obtain ⟨home, info, hresolved, -⟩ :=
      super_starts_above_home .fresh 40 (fun _ => 0) renamedText hsource hvisits
    exact ⟨hsource, _, _, _, _, home, info, hvisits, Option.some.inj hreceivers, hresolved⟩
  · cases hreceivers

end Lox
