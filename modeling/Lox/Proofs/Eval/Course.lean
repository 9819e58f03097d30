/-
  Lox.Proofs.Eval.Course — what an evaluation is made of: how it ends, its parts in the order
  in which they are started, and the few kinds of changes that it makes to the machine by
  itself, between its parts (`Acts`). It makes them with values that it has at hand: those it
  was given, those its parts yielded, and those it found in the heap.
-/

import Mathlib.Logic.Relation
import Lox.Proofs.Eval.Families
import Lox.Proofs.Eval.Parallel
import Lox.Proofs.Eval.Parts

namespace Lox

open Eval

/-! ## Values and where they are found -/

/-- What the value refers to exists. -/
def Value.Backed (h : Heap) : Value → Prop
  | .function id => ∃ c, h.functions[id]? = some c
  | .classRef id => ∃ info, h.classes[id]? = some info
  | .object id => ∃ object, h.objects[id]? = some object
  | _ => True

/-- Some scope binds the value, or some field has it. -/
def Heap.Holds (h : Heap) (v : Value) : Prop :=
  (∃ id name, h.scopes.own? id name = some v) ∨
    ∃ (id : Nat) (object : Object) (name : Bytes), h.objects[id]? = some object ∧ object.fields.get? name = some v

def Value.FoundIn (h : Heap) (v : Value) : Prop := v.Backed h ∨ h.Holds v

/-! ## Machines, one change at a time -/

namespace Machine

variable (m : Machine)

def bindName (scope : ScopeId) (name : Bytes) (value : Value) : Machine :=
  { m with heap := { m.heap with scopes := m.heap.scopes.define scope name value } }

def addScope (scope : Scope) : Machine := { m with heap := { m.heap with scopes := m.heap.scopes.push scope } }

def addFunction (c : Closure) : Machine := { m with heap := { m.heap with functions := m.heap.functions.push c } }

def addClass (info : ClassInfo) : Machine := { m with heap := { m.heap with classes := m.heap.classes.push info } }

def addObject (object : Object) : Machine := { m with heap := { m.heap with objects := m.heap.objects.push object } }

def setField (id : ObjectId) (name : Bytes) (value : Value) : Machine :=
  { m with heap := { m.heap with
    objects := m.heap.objects.modify id fun o => { o with fields := o.fields.insert name value } } }

end Machine

def Closure.receiving (method : Closure) (receiver : ObjectId) : Scope :=
  ⟨some method.scope, Table.empty.insert thisName (.object receiver)⟩

def Stmt.declared? : Stmt → Option Bytes
  | .var name _ => some name.text
  | .function d => some d.name.text
  | .classDecl name _ _ => some name.text
  | _ => none

namespace Evaluation

/-- A change that an evaluation makes by itself, where it has these values at hand. -/
inductive Acts : Evaluation → List Value → Machine → Machine → Prop
  | assigned {n name e m₀ pool m holder value} : m.heap.scopes.holder? m.scope name.text = some holder → value ∈ pool →
      Acts ⟨n + 1, .expr (.assign name e), m₀⟩ pool m (m.bindName holder name.text value)
  | called {n f args line m₀ pool m} : m.depth < maxDepth →
      Acts ⟨n + 1, .expr (.call f args line), m₀⟩ pool m { m with depth := m.depth + 1 }
  | hungUp {n f args line m₀ pool m} :
      Acts ⟨n + 1, .expr (.call f args line), m₀⟩ pool m { m with depth := m₀.depth }
  | stored {n o name e m₀ pool m id value} : value ∈ pool →
      Acts ⟨n + 1, .expr (.set o name e), m₀⟩ pool m (m.setField id name.text value)
  | received {p pool m home method receiver} : m.heap.Declared home method → (Value.object receiver).FoundIn m.heap →
      Acts p pool m (m.addScope (method.receiving receiver))
  | bound {p pool m home method receiver scope} : m.heap.Declared home method →
      m.heap.scopes.all[scope]? = some (method.receiving receiver) → Acts p pool m (m.addFunction { method with scope })
  | timed {n args m₀ pool m} : Acts ⟨n + 1, .call .clock args, m₀⟩ pool m { m with readings := m.readings + 1 }
  | created {n id args m₀ pool m} : Acts ⟨n + 1, .call (.classRef id) args, m₀⟩ pool m (m.addObject ⟨id, {}⟩)
  | entered {n c args m₀ pool m} : args ⊆ pool → Acts ⟨n + 1, .closure c args, m₀⟩ pool m
      (m.addScope ⟨some c.scope, Scopes.bindAll Table.empty c.declaration.parameters args⟩)
  | opened {n body m₀ pool m} :
      Acts ⟨n + 1, .stmt (.block body), m₀⟩ pool m (m.addScope ⟨some m.scope, Table.empty⟩)
  | moved {p pool m scope} : Acts p pool m { m with scope }
  | printed {n e m₀ pool m text} : Acts ⟨n + 1, .stmt (.print e), m₀⟩ pool m { m with printed := m.printed.push text }
  | declared {n s m₀ pool m name value} : s.declared? = some name → value ∈ pool ∨ value.FoundIn m.heap →
      Acts ⟨n + 1, .stmt s, m₀⟩ pool m (m.bindName m₀.scope name value)
  | functionMade {n d m pool} : Acts ⟨n + 1, .stmt (.function d), m⟩ pool m (m.addFunction ⟨d, m.scope, false⟩)
  | superKnown {n name clause methods m₀ pool m id} : (Value.classRef id).FoundIn m.heap →
      Acts ⟨n + 1, .stmt (.classDecl name clause methods), m₀⟩ pool m
        (m.addScope ⟨some m₀.scope, Table.empty.insert superName (.classRef id)⟩)
  | classMade {n name clause methods m₀ pool m parent scope} : superclass clause m₀ = (.ok parent, m₀) →
      m.heap.classes = m₀.heap.classes → Acts ⟨n + 1, .stmt (.classDecl name clause methods), m₀⟩ pool m
        (m.addClass ⟨name.text, parent, methodTable scope methods⟩)

theorem Acts.mono {p : Evaluation} {pool pool' : List Value} {m m' : Machine} (h : p.Acts pool m m') (hp : pool ⊆ pool') :
    p.Acts pool' m m' := by
  cases h with
  | assigned hh hv => exact .assigned hh (hp hv)
  | called hd => exact .called hd
  | hungUp => exact .hungUp
  | stored hv => exact .stored (hp hv)
  | received hm hr => exact .received hm hr
  | bound hm hs => exact .bound hm hs
  | timed => exact .timed
  | created => exact .created
  | entered ha => exact .entered (List.Subset.trans ha hp)
  | opened => exact .opened
  | moved => exact .moved
  | printed => exact .printed
  | declared hn hv => exact .declared hn (hv.imp_left (@hp _))
  | functionMade => exact .functionMade
  | superKnown hid => exact .superKnown hid
  | classMade hparent hclasses => exact .classMade hparent hclasses

abbrev Moves (p : Evaluation) (pool : List Value) : Machine → Machine → Prop := Relation.ReflTransGen (p.Acts pool)

/-! ## How evaluations end -/

def yields {α : Type} (values : α → List Value) (out : Except Halt α × Machine) : Except Halt (List Value) × Machine :=
  (out.1.map values, out.2)

def returnedValues : Completion → List Value
  | .normal => []
  | .returned value => [value]

/-- The values that an evaluation yields, or why it halts, and the machine it leaves. -/
def outcome : Evaluation → Except Halt (List Value) × Machine
  | ⟨n, .expr e, m⟩ => yields (fun v => [v]) (evalExpr n e m)
  | ⟨n, .exprs es, m⟩ => yields id (evalExprs n es m)
  | ⟨n, .call callee args, m⟩ => yields (fun v => [v]) (callValue n callee args m)
  | ⟨n, .closure c args, m⟩ => yields (fun v => [v]) (callClosure n c args m)
  | ⟨n, .stmt s, m⟩ => yields returnedValues (execStmt n s m)
  | ⟨n, .stmts ss, m⟩ => yields returnedValues (execStmts n ss m)
  | ⟨n, .loop c b, m⟩ => yields returnedValues (execLoop n c b m)
  | ⟨n, .program ss, m⟩ => yields (fun _ => []) (execProgram n ss m)

def final (p : Evaluation) : Machine := p.outcome.2

/-- The values that an evaluation starts from. -/
def given (p : Evaluation) : List Value :=
  match p.task with
  | .call callee args => callee :: args
  | .closure _ args => args
  | _ => []

/-- Scope, depth and clock are at the end what they were at the start. -/
theorem steady (p : Evaluation) : p.machine.Steady p.final := by
  obtain ⟨n, task, m⟩ := p
  have hfits : Lead.Fits ⟨id, #[], 0, m.clock⟩ m := fun i => congrArg m.clock (Nat.zero_add i)
  cases task with
  | expr e => exact ((follows _ n).expr e m hfits).eq.1
  | exprs es => exact ((follows _ n).exprs es m hfits).eq.1
  | call callee args => exact ((follows _ n).call callee args m hfits).eq.1
  | closure c args => exact ((follows _ n).closure c args m hfits).eq.1
  | stmt s => exact ((follows _ n).stmt s m hfits).eq.1
  | stmts ss => exact ((follows _ n).stmts ss m hfits).eq.1
  | loop c b => exact ((follows _ n).loop c b m hfits).eq.1
  | program ss => exact execProgram_steady n ss m

/-! ## The parts in order -/

def andThen {α : Type} (out : Except Halt α × Machine) (next : α → Machine → List Evaluation) : List Evaluation :=
  match out with
  | (.ok a, m) => next a m
  | (.error _, _) => []

/-- The parts of an evaluation, in the order in which they are started. -/
def parts : Evaluation → List Evaluation
  | ⟨_, .program [], _⟩ => []
  | ⟨n, .program (s :: ss), m⟩ => ⟨n, .stmt s, m⟩ :: andThen (execStmt n s m) fun _ m' => [⟨n, .program ss, m'⟩]
  | ⟨0, _, _⟩ => []
  | ⟨n + 1, .expr e, m⟩ =>
    match e with
    | .literal _ | .var _ | .this _ | .super _ _ => []
    | .assign _ e | .unary _ _ e | .get e _ | .group e => [⟨n, .expr e, m⟩]
    | .binary _ _ l r => ⟨n, .expr l, m⟩ :: andThen (evalExpr n l m) fun _ m' => [⟨n, .expr r, m'⟩]
    | .logical op l r => ⟨n, .expr l, m⟩ :: andThen (evalExpr n l m) fun v m' =>
        if decides op v then [] else [⟨n, .expr r, m'⟩]
    | .call f args line => ⟨n, .expr f, m⟩ :: andThen (evalExpr n f m) fun v m₁ =>
        ⟨n, .exprs args, m₁⟩ :: andThen (evalExprs n args m₁) fun vs m₂ =>
          andThen (checkCall v vs.length line m₂) fun _ m₃ => [⟨n, .call v vs, { m₃ with depth := m₃.depth + 1 }⟩]
    | .set o _ e => ⟨n, .expr o, m⟩ :: andThen (evalExpr n o m) fun v m' =>
        match v with
        | .object _ => [⟨n, .expr e, m'⟩]
        | _ => []
  | ⟨_ + 1, .exprs [], _⟩ => []
  | ⟨n + 1, .exprs (e :: es), m⟩ => ⟨n, .expr e, m⟩ :: andThen (evalExpr n e m) fun _ m' => [⟨n, .exprs es, m'⟩]
  | ⟨n + 1, .call callee args, m⟩ =>
    match callee with
    | .function id =>
      match m.heap.functions[id]? with
      | some c => [⟨n, .closure c args, m⟩]
      | none => []
    | .classRef id =>
      match (m.addObject ⟨id, {}⟩).heap.method? id initializerName with
      | some method => [⟨n, .closure { method with scope := m.heap.scopes.next } args,
          (m.addObject ⟨id, {}⟩).addScope (method.receiving m.heap.objects.size)⟩]
      | none => []
    | _ => []
  | ⟨n + 1, .closure c args, m⟩ => [⟨n, .stmts c.declaration.body,
      { m.addScope ⟨some c.scope, Scopes.bindAll Table.empty c.declaration.parameters args⟩ with
        scope := m.heap.scopes.next }⟩]
  | ⟨n + 1, .stmt s, m⟩ =>
    match s with
    | .expression e | .print e | .var _ (some e) | .ret (some e) => [⟨n, .expr e, m⟩]
    | .var _ none | .function _ | .ret none | .classDecl _ _ _ => []
    | .block body =>
      [⟨n, .stmts body, { m.addScope ⟨some m.scope, Table.empty⟩ with scope := m.heap.scopes.next }⟩]
    | .ifElse c t e => ⟨n, .expr c, m⟩ :: andThen (evalExpr n c m) fun v m' =>
        if v.truthy then [⟨n, .stmt t, m'⟩]
        else match e with
          | some e => [⟨n, .stmt e, m'⟩]
          | none => []
    | .loop c b => [⟨n, .loop c b, m⟩]
  | ⟨_ + 1, .stmts [], _⟩ => []
  | ⟨n + 1, .stmts (s :: ss), m⟩ => ⟨n, .stmt s, m⟩ :: andThen (execStmt n s m) fun completion m' =>
      match completion with
      | .normal => [⟨n, .stmts ss, m'⟩]
      | .returned _ => []
  | ⟨n + 1, .loop c b, m⟩ => ⟨n, .expr c, m⟩ :: andThen (evalExpr n c m) fun v m₁ =>
      if v.truthy then
        ⟨n, .stmt b, m₁⟩ :: andThen (execStmt n b m₁) fun completion m₂ =>
          match completion with
          | .normal => [⟨n, .loop c b, m₂⟩]
          | .returned _ => []
      else []

section

variable {α : Type} {out : Except Halt α × Machine} {next : α → Machine → List Evaluation}

theorem andThen_ok {a : α} {m : Machine} (h : out = (.ok a, m)) : andThen out next = next a m := by
  rw [h]
  rfl

theorem andThen_error {halt : Halt} {m : Machine} (h : out = (.error halt, m)) : andThen out next = [] := by
  rw [h]
  rfl

/-- What follows a step is started only if the step came to an end. -/
theorem mem_andThen {e : Evaluation} (h : e ∈ andThen out next) : ∃ a m, out = (.ok a, m) ∧ e ∈ next a m := by
  rcases out with ⟨_ | a, m⟩
  · cases h
  · exact ⟨a, m, rfl, h⟩

end

section

variable {n : Nat} {m : Machine} {e' : Evaluation}

theorem part_of_expr {e : Expr} (h : e' ∈ parts ⟨n + 1, .expr e, m⟩) : Part ⟨n + 1, .expr e, m⟩ e' := by
  cases e with
  | literal v => cases h
  | var name => cases h
  | this line => cases h
  | super line method => cases h
  | assign name e =>
    rw [List.mem_singleton.mp h]
    exact .assigned
  | unary op line e =>
    rw [List.mem_singleton.mp h]
    exact .operand
  | get o name =>
    rw [List.mem_singleton.mp h]
    exact .owner
  | group e =>
    rw [List.mem_singleton.mp h]
    exact .grouped
  | binary op line l r =>
    rcases List.mem_cons.mp h with rfl | h
    · exact .left
    · obtain ⟨v, m', hl, h⟩ := mem_andThen h
      rw [List.mem_singleton.mp h]
      exact .right hl
  | logical op l r =>
    rcases List.mem_cons.mp h with rfl | h
    · exact .decider
    · obtain ⟨v, m', hl, h⟩ := mem_andThen h
      split at h
      · cases h
      · rename_i hd
        rw [List.mem_singleton.mp h]
        exact .undecided hl (by simpa using hd)
  | call f args line =>
    rcases List.mem_cons.mp h with rfl | h
    · exact .callee
    · obtain ⟨v, m₁, hf, h⟩ := mem_andThen h
      rcases List.mem_cons.mp h with rfl | h
      · exact .arguments hf
      · obtain ⟨vs, m₂, hargs, h⟩ := mem_andThen h
        obtain ⟨_, m₃, hcheck, h⟩ := mem_andThen h
        rw [List.mem_singleton.mp h]
        exact .invocation hf hargs hcheck
  | set o name e =>
    rcases List.mem_cons.mp h with rfl | h
    · exact .target
    · obtain ⟨v, m', ho, h⟩ := mem_andThen h
      cases v with
      | object id =>
        rw [List.mem_singleton.mp h]
        exact .fieldValue ho
      | nil | bool | number | string | function | clock | classRef => cases h

theorem part_of_call {callee : Value} {args : List Value} (h : e' ∈ parts ⟨n + 1, .call callee args, m⟩) :
    Part ⟨n + 1, .call callee args, m⟩ e' := by
  cases callee with
  | function id =>
    simp only [parts] at h
    split at h
    · rename_i hc
      rw [List.mem_singleton.mp h]
      exact .function hc
    · cases h
  | classRef id =>
    simp only [parts] at h
    split at h
    · rename_i hmethod
      rw [List.mem_singleton.mp h]
      exact .initializer rfl hmethod rfl
    · cases h
  | nil | bool | number | string | clock | object => cases h

theorem part_of_stmt {s : Stmt} (h : e' ∈ parts ⟨n + 1, .stmt s, m⟩) : Part ⟨n + 1, .stmt s, m⟩ e' := by
  cases s with
  | expression e =>
    rw [List.mem_singleton.mp h]
    exact .discarded
  | print e =>
    rw [List.mem_singleton.mp h]
    exact .printed
  | var name value =>
    cases value with
    | none => cases h
    | some e =>
      rw [List.mem_singleton.mp h]
      exact .initial
  | block body =>
    rw [List.mem_singleton.mp h]
    exact .block rfl
  | ifElse c t e =>
    rcases List.mem_cons.mp h with rfl | h
    · exact .condition
    · obtain ⟨v, m', hc, h⟩ := mem_andThen h
      split at h
      · rename_i hv
        rw [List.mem_singleton.mp h]
        exact .thenBranch hc hv
      · rename_i hv
        cases e with
        | none => cases h
        | some e =>
          rw [List.mem_singleton.mp h]
          exact .elseBranch hc (by simpa using hv)
  | loop c b =>
    rw [List.mem_singleton.mp h]
    exact .loop
  | function d => cases h
  | ret value =>
    cases value with
    | none => cases h
    | some e =>
      rw [List.mem_singleton.mp h]
      exact .returned
  | classDecl name clause methods => cases h

theorem part_of_loop {c : Expr} {b : Stmt} (h : e' ∈ parts ⟨n + 1, .loop c b, m⟩) : Part ⟨n + 1, .loop c b, m⟩ e' := by
  rcases List.mem_cons.mp h with rfl | h
  · exact .test
  · obtain ⟨v, m₁, hc, h⟩ := mem_andThen h
    split at h
    · rename_i hv
      rcases List.mem_cons.mp h with rfl | h
      · exact .turn hc hv
      · obtain ⟨completion, m₂, hb, h⟩ := mem_andThen h
        cases completion with
        | normal =>
          rw [List.mem_singleton.mp h]
          exact .again hc hv hb
        | returned value => cases h
    · cases h

end

/-- The list has exactly the parts. -/
theorem mem_parts {p e : Evaluation} : e ∈ p.parts ↔ Part p e := by
  constructor
  · intro h
    obtain ⟨n, task, m⟩ := p
    cases task with
    | program ss =>
      cases ss with
      | nil => cases h
      | cons s ss =>
        rcases List.mem_cons.mp h with rfl | h
        · exact .topLevel
        · obtain ⟨completion, m', hs, h⟩ := mem_andThen h
          rw [List.mem_singleton.mp h]
          exact .rest hs
    | expr e =>
      cases n with
      | zero => cases h
      | succ n => exact part_of_expr h
    | exprs es =>
      cases n with
      | zero => cases h
      | succ n =>
        cases es with
        | nil => cases h
        | cons e es =>
          rcases List.mem_cons.mp h with rfl | h
          · exact .first
          · obtain ⟨v, m', he, h⟩ := mem_andThen h
            rw [List.mem_singleton.mp h]
            exact .others he
    | call callee args =>
      cases n with
      | zero => cases h
      | succ n => exact part_of_call h
    | closure c args =>
      cases n with
      | zero => cases h
      | succ n =>
        rw [List.mem_singleton.mp h]
        exact .functionBody rfl
    | stmt s =>
      cases n with
      | zero => cases h
      | succ n => exact part_of_stmt h
    | stmts ss =>
      cases n with
      | zero => cases h
      | succ n =>
        cases ss with
        | nil => cases h
        | cons s ss =>
          rcases List.mem_cons.mp h with rfl | h
          · exact .statement
          · obtain ⟨completion, m', hs, h⟩ := mem_andThen h
            cases completion with
            | normal =>
              rw [List.mem_singleton.mp h]
              exact .statements hs
            | returned value => cases h
    | loop c b =>
      cases n with
      | zero => cases h
      | succ n => exact part_of_loop h
  · intro h
    cases h with
    | initializer hobject hmethod hbind =>
      cases hobject
      cases hbind
      have hmethod' : (Machine.addObject _ _).heap.method? _ _ = some _ := hmethod
      simp only [parts, hmethod']
      exact List.mem_singleton_self _
    | functionBody hscope =>
      cases hscope
      exact List.mem_singleton_self _
    | block hscope =>
      cases hscope
      exact List.mem_singleton_self _
    | _ => simp_all [parts, andThen]

end Evaluation

end Lox
