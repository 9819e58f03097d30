/-
  Lox.Proofs.Eval.Run — evaluation as a function from machines to machines.
-/

import Lox.Eval
import Lox.Proofs.Eval.Scopes

namespace Lox

/-- What a step leaves as it was, however it ends. -/
structure Machine.Steady (m m' : Machine) : Prop where
  scope : m'.scope = m.scope
  depth : m'.depth = m.depth
  clock : m'.clock = m.clock

theorem Machine.Steady.refl (m : Machine) : m.Steady m := ⟨rfl, rfl, rfl⟩

theorem Machine.Steady.trans {m m' m'' : Machine} (h : m.Steady m') (h' : m'.Steady m'') : m.Steady m'' :=
  ⟨h'.scope.trans h.scope, h'.depth.trans h.depth, h'.clock.trans h.clock⟩

namespace Eval

variable {α β : Type}

/-- How a sequence runs: the second step where the first came to an end. -/
theorem bind_run (x : Eval α) (f : α → Eval β) (m : Machine) :
    (x >>= f) m = match x m with
      | (.ok a, m') => f a m'
      | (.error halt, m') => (.error halt, m') := by
  show (ExceptT.bindCont f (x m).1) (x m).2 = _
  rcases x m with ⟨_ | a, m'⟩ <;> rfl

theorem bind_ok {x : Eval α} {f : α → Eval β} {m m' : Machine} {a : α} (h : x m = (.ok a, m')) :
    (x >>= f) m = f a m' := by
  rw [bind_run, h]

theorem bind_error {x : Eval α} {f : α → Eval β} {m m' : Machine} {halt : Halt} (h : x m = (.error halt, m')) :
    (x >>= f) m = (.error halt, m') := by
  rw [bind_run, h]

theorem get_bind (f : Machine → Eval β) (m : Machine) : ((get : Eval Machine) >>= f) m = f m m := rfl

theorem modify_run (f : Machine → Machine) (m : Machine) : (modify f : Eval Unit) m = (.ok (), f m) := rfl

/-- Whatever the step did, the scope is the old one again. -/
theorem inScope_run {x : Eval α} {scope : ScopeId} {m m' : Machine} {r : Except Halt α}
    (h : x { m with scope } = (r, m')) : inScope scope x m = (r, { m' with scope := m.scope }) := by
  simp only [inScope, h]

/-- The step runs one level deeper, and one level is taken off wherever it has got to. -/
theorem deeper_run {x : Eval α} {m m' : Machine} {r : Except Halt α}
    (h : x { m with depth := m.depth + 1 } = (r, m')) : deeper x m = (r, { m' with depth := m'.depth - 1 }) := by
  simp only [deeper, h]

/-- If the step keeps count of its own calls, as many are in progress after it as before. -/
theorem deeper_restored {x : Eval α} {m m' : Machine} {r : Except Halt α}
    (h : x { m with depth := m.depth + 1 } = (r, m')) (hdepth : m'.depth = m.depth + 1) :
    deeper x m = (r, { m' with depth := m.depth }) := by
  rw [deeper_run h, hdepth, Nat.add_sub_cancel]

/-! ## Names and classes -/

theorem enter_run (scope : ScopeId) (m : Machine) : enter scope m = (.ok (), { m with scope }) := rfl

theorem define_run (name : Bytes) (value : Value) (m : Machine) :
    define name value m =
      (.ok (), { m with heap := { m.heap with scopes := m.heap.scopes.define m.scope name value } }) := rfl

theorem newScope_run (outer : ScopeId) (bindings : Table Value) (m : Machine) :
    newScope outer bindings m = (.ok m.heap.scopes.next,
      { m with heap := { m.heap with scopes := m.heap.scopes.push ⟨some outer, bindings⟩ } }) := rfl

theorem newClass_run (info : ClassInfo) (m : Machine) :
    newClass info m = (.ok (.classRef m.heap.classes.size),
      { m with heap := { m.heap with classes := m.heap.classes.push info } }) := rfl

variable {m : Machine} {name : Name} {value : Value}

theorem assign_bound {holder : ScopeId} (h : m.heap.scopes.holder? m.scope name.text = some holder) :
    assign name value m =
      (.ok (), { m with heap := { m.heap with scopes := m.heap.scopes.define holder name.text value } }) := by
  rw [assign, get_bind, Scopes.assign?, h]
  rfl

theorem assign_unbound (h : m.heap.scopes.holder? m.scope name.text = none) :
    assign name value m = fail name.line (.undefinedVariable name.text) m := by
  rw [assign, get_bind, Scopes.assign?, h]
  rfl

/-- Without a superclass there is no scope to go into. -/
theorem declareClass_base (name : Bytes) (methods : List FunctionDecl) :
    declareClass name none methods =
      get >>= fun m => newClass ⟨name, none, methodTable m.scope methods⟩ >>= define name := by
  funext m
  rw [declareClass, get_bind, get_bind]
  dsimp only
  rw [get_bind, bind_ok (newClass_run _ _), bind_ok (enter_run _ _), bind_ok (newClass_run _ _)]

/-- The scope that binds the superclass is left behind. -/
theorem declareClass_derived (name : Bytes) (parent : ClassId) (methods : List FunctionDecl) :
    declareClass name (some parent) methods =
      get >>= fun m => newScope m.scope (Table.empty.insert superName (.classRef parent)) >>= fun scope =>
        newClass ⟨name, some parent, methodTable scope methods⟩ >>= define name := by
  funext m
  rw [declareClass, get_bind, get_bind]
  dsimp only
  rw [bind_ok (newScope_run _ _ m), bind_ok (enter_run _ _), bind_ok (define_run _ _ _), get_bind,
    bind_ok (newClass_run _ _), bind_ok (enter_run _ _), define_run, bind_ok (newScope_run _ _ m),
    bind_ok (newClass_run _ _), define_run]
  dsimp only
  rw [Scopes.define_push_next]

end Eval

end Lox
