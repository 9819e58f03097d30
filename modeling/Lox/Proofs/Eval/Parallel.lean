/-
  Lox.Proofs.Eval.Parallel — two evaluations side by side. The second has other line numbers
  in its program and in its heap, and is ahead of the first: more has been printed, and the
  clock has been read more often. `Parallel` says that the two do the same up to this; it
  holds of a program and the same program with other line numbers (`execProgram_parallel`).

  On the way out both have the scope and the depth they had on the way in, whatever happens.
-/

import Lox.Proofs.Eval.Run
import Lox.Proofs.Renumber

namespace Lox

/-! ## Heaps with other line numbers -/

def Table.map {α β : Type} (g : α → β) (t : Table α) : Table β := ⟨t.entries.map fun e => (e.1, g e.2)⟩

namespace Table

variable {α β : Type} (g : α → β) (t : Table α)

theorem get?_map (name : Bytes) : (t.map g).get? name = (t.get? name).map g := by
  obtain ⟨entries⟩ := t
  unfold Table.map Table.get?
  induction entries with
  | nil => rfl
  | cons e rest ih =>
    obtain ⟨n, a⟩ := e
    simp only [List.map_cons, List.lookup_cons]
    cases name == n with
    | true => rfl
    | false => exact ih

theorem map_insert (name : Bytes) (a : α) : (t.insert name a).map g = (t.map g).insert name (g a) := by
  obtain ⟨entries⟩ := t
  have hentries : (insertInto name a entries).map (fun e => (e.1, g e.2)) =
      insertInto name (g a) (entries.map fun e => (e.1, g e.2)) := by
    induction entries with
    | nil => rfl
    | cons e rest ih =>
      simp only [insertInto, List.map_cons]
      split
      · rfl
      · rw [List.map_cons, ih]
  exact congrArg Table.mk hentries

end Table

def Closure.renumber (f : Nat → Nat) (c : Closure) : Closure := { c with declaration := c.declaration.renumber f }

def ClassInfo.renumber (f : Nat → Nat) (info : ClassInfo) : ClassInfo :=
  { info with methods := info.methods.map (Closure.renumber f) }

def Heap.renumber (f : Nat → Nat) (h : Heap) : Heap :=
  { h with functions := h.functions.map (Closure.renumber f), classes := h.classes.map (ClassInfo.renumber f) }

def RuntimeError.renumber (f : Nat → Nat) (e : RuntimeError) : RuntimeError := { e with line := f e.line }

def Halt.renumber (f : Nat → Nat) : Halt → Halt
  | .fault e => .fault (e.renumber f)
  | .exhausted => .exhausted

section

variable (f : Nat → Nat)

@[simp] theorem FunctionDecl.renumber_name (d : FunctionDecl) : (d.renumber f).name = d.name.renumber f := by
  cases d; rfl

@[simp] theorem FunctionDecl.renumber_parameters (d : FunctionDecl) :
    (d.renumber f).parameters = d.parameters.map (Name.renumber f) := by
  cases d; rfl

@[simp] theorem FunctionDecl.renumber_body (d : FunctionDecl) : (d.renumber f).body = d.body.map (Stmt.renumber f) := by
  cases d
  simp only [FunctionDecl.renumber, FunctionDecl.body, Stmt.renumberAll_eq]

theorem Closure.arity_renumber (c : Closure) : (c.renumber f).arity = c.arity := by
  simp [Closure.arity, Closure.renumber]

namespace Heap

variable (h : Heap)

theorem functions_renumber (id : Nat) : (h.renumber f).functions[id]? = h.functions[id]?.map (Closure.renumber f) := by
  simp [Heap.renumber]

theorem classes_renumber (id : Nat) : (h.renumber f).classes[id]? = h.classes[id]?.map (ClassInfo.renumber f) := by
  simp [Heap.renumber]

theorem methodWithin?_renumber (name : Bytes) (bound id : Nat) :
    (h.renumber f).methodWithin? name bound id = (h.methodWithin? name bound id).map (Closure.renumber f) := by
  induction bound generalizing id with
  | zero => rfl
  | succ bound ih =>
    unfold Heap.methodWithin?
    rw [classes_renumber]
    cases h.classes[id]? with
    | none => rfl
    | some info =>
      have hget : (info.renumber f).methods.get? name = (info.methods.get? name).map (Closure.renumber f) :=
        Table.get?_map _ _ name
      simp only [Option.map_some, hget]
      cases info.methods.get? name with
      | some method => rfl
      | none =>
        dsimp only [ClassInfo.renumber, Option.map_none]
        cases info.superclass with
        | none => rfl
        | some parent => exact ih parent

theorem method?_renumber (id : Nat) (name : Bytes) :
    (h.renumber f).method? id name = (h.method? id name).map (Closure.renumber f) :=
  methodWithin?_renumber f h name (id + 1) id

theorem arity?_renumber (v : Value) : (h.renumber f).arity? v = h.arity? v := by
  have harity : Closure.arity ∘ Closure.renumber f = Closure.arity := funext (Closure.arity_renumber f)
  cases v with
  | function id =>
    show (h.renumber f).functions[id]?.map Closure.arity = _
    rw [functions_renumber, Option.map_map, harity]
    rfl
  | classRef id =>
    show some (((h.renumber f).method? id initializerName).map Closure.arity |>.getD 0) = _
    rw [method?_renumber, Option.map_map, harity]
    rfl
  | _ => rfl

theorem className_renumber (id : Nat) : (h.renumber f).className id = h.className id := by
  unfold Heap.className
  rw [classes_renumber, Option.map_map]
  rfl

/-- Line numbers are not printed. -/
theorem render_renumber (v : Value) : (h.renumber f).render v = h.render v := by
  cases v with
  | function id =>
    have hname : (fun c : Closure => c.declaration.name.text) ∘ Closure.renumber f =
        fun c => c.declaration.name.text := by
      funext c
      simp [Closure.renumber]
    show utf8 "<fn " ++ ((h.renumber f).functions[id]?.map (·.declaration.name.text)).getD [] ++ utf8 ">" = _
    rw [functions_renumber, Option.map_map, hname]
    rfl
  | classRef id => exact className_renumber f h id
  | object id =>
    show (h.objects[id]?.map fun o => (h.renumber f).className o.classId).getD [] ++ utf8 " instance" = _
    simp only [className_renumber]
    rfl
  | _ => rfl

end Heap

end

/-! ## Machines ahead of others -/

/-- How a machine differs from one that it is ahead of. -/
structure Lead where
  line : Nat → Nat
  /-- What was printed before. -/
  printed : Array Bytes
  /-- How often the clock was read before. -/
  readings : Nat
  /-- What the clock shows, from the first reading on. -/
  clock : Nat → Float

def Machine.ahead (m : Machine) (l : Lead) : Machine :=
  { m with
    heap := m.heap.renumber l.line
    printed := l.printed ++ m.printed
    clock := l.clock
    readings := l.readings + m.readings }

@[simp] theorem Machine.ahead_scope (m : Machine) (l : Lead) : (m.ahead l).scope = m.scope := rfl
@[simp] theorem Machine.ahead_heap (m : Machine) (l : Lead) : (m.ahead l).heap = m.heap.renumber l.line := rfl
@[simp] theorem Heap.renumber_scopes (f : Nat → Nat) (h : Heap) : (h.renumber f).scopes = h.scopes := rfl
@[simp] theorem Heap.renumber_objects (f : Nat → Nat) (h : Heap) : (h.renumber f).objects = h.objects := rfl

/-- The clock shows to the one behind what it shows to the one ahead. -/
def Lead.Fits (l : Lead) (m : Machine) : Prop := ∀ i, l.clock (l.readings + i) = m.clock i

/-- No step touches the clock, so it goes on fitting. -/
theorem Lead.Fits.steady {l : Lead} {m m' : Machine} (h : l.Fits m) (hs : m.Steady m') : l.Fits m' := by
  intro i
  rw [hs.clock]
  exact h i

namespace Eval

variable {α β γ δ : Type} {l : Lead}

inductive Alike (l : Lead) (m : Machine) (g : α → β) : Except Halt α × Machine → Except Halt β × Machine → Prop
  | ok {a : α} {b : β} {m' : Machine} : m.Steady m' → b = g a → Alike l m g (.ok a, m') (.ok b, m'.ahead l)
  | error {halt : Halt} {m' : Machine} :
      m.Steady m' → Alike l m g (.error halt, m') (.error (halt.renumber l.line), m'.ahead l)

/-- Both come to an end with the same value, or halt for the same reason at the other line. -/
theorem Alike.cases {m : Machine} {g : α → β} {out : Except Halt α × Machine} {out' : Except Halt β × Machine}
    (h : Alike l m g out out') :
    (∃ a m', m.Steady m' ∧ out = (.ok a, m') ∧ out' = (.ok (g a), m'.ahead l)) ∨
    (∃ halt m', m.Steady m' ∧ out = (.error halt, m') ∧ out' = (.error (halt.renumber l.line), m'.ahead l)) := by
  cases h with
  | ok hs hb => exact .inl ⟨_, _, hs, rfl, by rw [hb]⟩
  | error hs => exact .inr ⟨_, _, hs, rfl, rfl⟩

/-- Where values stay as they are, the second end is the image of the first. -/
theorem Alike.eq {m : Machine} {out out' : Except Halt α × Machine} (h : Alike l m id out out') :
    m.Steady out.2 ∧ out' = (out.1.mapError (Halt.renumber l.line), out.2.ahead l) := by
  cases h with
  | ok hs hb => exact ⟨hs, by rw [hb]; rfl⟩
  | error hs => exact ⟨hs, rfl⟩

theorem Alike.from {m₀ m : Machine} {g : α → β} {out : Except Halt α × Machine} {out' : Except Halt β × Machine}
    (hs : m₀.Steady m) (h : Alike l m g out out') : Alike l m₀ g out out' := by
  cases h with
  | ok hs' hb => exact .ok (hs.trans hs') hb
  | error hs' => exact .error (hs.trans hs')

/-- `g` turns the values of the first into those of the second. -/
def Parallel (l : Lead) (g : α → β) (x : Eval α) (y : Eval β) : Prop :=
  ∀ m : Machine, l.Fits m → Alike l m g (x m) (y (m.ahead l))

section

variable {g : α → β} {k : γ → δ} {x : Eval α} {y : Eval β}

theorem Parallel.pure {a : α} {b : β} (h : b = g a) : Parallel l g (pure a) (pure b) :=
  fun m _ => .ok (.refl m) h

theorem Parallel.fail (line : Nat) (fault : RuntimeFault) : Parallel l g (fail line fault) (fail (l.line line) fault) :=
  fun m _ => .error (.refl m)

theorem Parallel.exhausted : Parallel l g exhausted exhausted := fun m _ => .error (.refl m)

/-- Parallel steps in sequence are parallel. -/
theorem Parallel.bind {u : α → Eval γ} {v : β → Eval δ} (hx : Parallel l g x y)
    (hu : ∀ a, Parallel l k (u a) (v (g a))) : Parallel l k (x >>= u) (y >>= v) := by
  intro m hm
  obtain ⟨a, m', hs, hx, hy⟩ | ⟨halt, m', hs, hx, hy⟩ := (hx m hm).cases
  · rw [bind_ok hx, bind_ok hy]
    exact (hu a m' (hm.steady hs)).from hs
  · rw [bind_error hx, bind_error hy]
    exact .error hs

theorem Parallel.get {u : Machine → Eval γ} {v : Machine → Eval δ} (h : ∀ m, Parallel l k (u m) (v (m.ahead l))) :
    Parallel l k (MonadState.get >>= u) (MonadState.get >>= v) := by
  intro m hm
  rw [get_bind, get_bind]
  exact h m m hm

theorem Parallel.inScope (scope : ScopeId) (h : Parallel l g x y) :
    Parallel l g (inScope scope x) (inScope scope y) := by
  intro m hm
  obtain ⟨a, m', hs, hx, hy⟩ | ⟨halt, m', hs, hx, hy⟩ := (h { m with scope } hm).cases
  · have hy' : y { m.ahead l with scope } = _ := hy
    rw [inScope_run hx, inScope_run hy']
    exact .ok ⟨rfl, hs.depth, hs.clock⟩ rfl
  · have hy' : y { m.ahead l with scope } = _ := hy
    rw [inScope_run hx, inScope_run hy']
    exact .error ⟨rfl, hs.depth, hs.clock⟩

/-- Both count one call more, and one less afterwards. -/
theorem Parallel.deeper (h : Parallel l g x y) : Parallel l g (deeper x) (deeper y) := by
  intro m hm
  obtain ⟨a, m', hs, hx, hy⟩ | ⟨halt, m', hs, hx, hy⟩ := (h { m with depth := m.depth + 1 } hm).cases
  · have hy' : y { m.ahead l with depth := (m.ahead l).depth + 1 } = _ := hy
    rw [deeper_restored hx hs.depth, deeper_restored hy' hs.depth]
    exact .ok ⟨hs.scope, rfl, hs.clock⟩ rfl
  · have hy' : y { m.ahead l with depth := (m.ahead l).depth + 1 } = _ := hy
    rw [deeper_restored hx hs.depth, deeper_restored hy' hs.depth]
    exact .error ⟨hs.scope, rfl, hs.clock⟩

/-- A change that commutes with getting ahead is parallel to itself. -/
theorem Parallel.modify {u v : Machine → Machine} (hs : ∀ m : Machine, m.Steady (u m))
    (hv : ∀ m : Machine, v (m.ahead l) = (u m).ahead l) : Parallel l id (modify u) (modify v) := by
  intro m _
  rw [modify_run, modify_run, hv]
  exact .ok (hs m) rfl

theorem Parallel.modifyGet {u : Machine → α × Machine} {v : Machine → β × Machine} (hs : ∀ m : Machine, m.Steady (u m).2)
    (hv : ∀ m : Machine, v (m.ahead l) = (g (u m).1, (u m).2.ahead l)) : Parallel l g (modifyGet u) (modifyGet v) := by
  intro m _
  show Alike l m g (.ok (u m).1, (u m).2) (.ok (v (m.ahead l)).1, (v (m.ahead l)).2)
  rw [hv]
  exact .ok (hs m) rfl

end

/-! ## Names -/

/-- Lookups agree, since scopes hold no lines. -/
theorem lookup_parallel (name : Name) : Parallel l id (lookup name) (lookup (name.renumber l.line)) := by
  refine .get fun m => ?_
  simp only [Machine.ahead_heap, Machine.ahead_scope, Heap.renumber_scopes, Name.renumber_text]
  cases m.heap.scopes.get? m.scope name.text with
  | some value => exact .pure rfl
  | none => exact .fail name.line _

theorem assign_parallel (name : Name) (value : Value) :
    Parallel l id (assign name value) (assign (name.renumber l.line) value) := by
  intro m hm
  have hmoved : (m.ahead l).heap.scopes.holder? (m.ahead l).scope (name.renumber l.line).text =
      m.heap.scopes.holder? m.scope name.text := rfl
  cases h : m.heap.scopes.holder? m.scope name.text with
  | some holder =>
    rw [assign_bound h, assign_bound (hmoved.trans h)]
    exact .ok ⟨rfl, rfl, rfl⟩ rfl
  | none =>
    rw [assign_unbound h, assign_unbound (hmoved.trans h)]
    exact .error (.refl m)

theorem define_parallel (name : Bytes) (value : Value) : Parallel l id (define name value) (define name value) :=
  .modify (fun _ => ⟨rfl, rfl, rfl⟩) fun _ => rfl

/-! ## New things -/

theorem newScope_parallel (enclosing : ScopeId) (bindings : Table Value) :
    Parallel l id (newScope enclosing bindings) (newScope enclosing bindings) :=
  .modifyGet (fun _ => ⟨rfl, rfl, rfl⟩) fun _ => rfl

theorem newFunction_parallel (c : Closure) : Parallel l id (newFunction c) (newFunction (c.renumber l.line)) := by
  refine .modifyGet (fun _ => ⟨rfl, rfl, rfl⟩) fun m => ?_
  simp [Machine.ahead, Heap.renumber]

theorem newClass_parallel (info : ClassInfo) : Parallel l id (newClass info) (newClass (info.renumber l.line)) := by
  refine .modifyGet (fun _ => ⟨rfl, rfl, rfl⟩) fun m => ?_
  simp [Machine.ahead, Heap.renumber]

theorem newObject_parallel (classId : ClassId) : Parallel l id (newObject classId) (newObject classId) :=
  .modifyGet (fun _ => ⟨rfl, rfl, rfl⟩) fun _ => rfl

/-- The bound method keeps the other line numbers. -/
theorem bindReceiver_parallel (method : Closure) (receiver : ObjectId) :
    Parallel l (Closure.renumber l.line) (bindReceiver method receiver)
      (bindReceiver (method.renumber l.line) receiver) :=
  (newScope_parallel method.scope _).bind fun _ => .pure rfl

theorem bindMethod_parallel (method : Closure) (receiver : ObjectId) :
    Parallel l id (bindMethod method receiver) (bindMethod (method.renumber l.line) receiver) :=
  (bindReceiver_parallel method receiver).bind newFunction_parallel

/-! ## Operators and objects -/

theorem numbers_parallel (line : Nat) (op : Float → Float → Value) (left right : Value) :
    Parallel l id (numbers line op left right) (numbers (l.line line) op left right) := by
  unfold numbers
  split
  · exact .pure rfl
  · exact .fail line _

theorem applyUnary_parallel (op : UnaryOp) (line : Nat) (v : Value) :
    Parallel l id (applyUnary op line v) (applyUnary op (l.line line) v) := by
  unfold applyUnary
  split
  · exact .pure rfl
  · exact .pure rfl
  · exact .fail line _

theorem applyBinary_parallel (op : BinaryOp) (line : Nat) (left right : Value) :
    Parallel l id (applyBinary op line left right) (applyBinary op (l.line line) left right) := by
  cases op with
  | equal => exact .pure rfl
  | notEqual => exact .pure rfl
  | add =>
    simp only [applyBinary]
    split
    · exact .pure rfl
    · exact .pure rfl
    · exact .fail line _
  | _ => exact numbers_parallel line _ left right

theorem expectObject_parallel (line : Nat) (fault : RuntimeFault) (v : Value) :
    Parallel l id (expectObject line fault v) (expectObject (l.line line) fault v) := by
  unfold expectObject
  split
  · exact .pure rfl
  · exact .fail line _

theorem getProperty_parallel (id' : ObjectId) (name : Name) :
    Parallel l id (getProperty id' name) (getProperty id' (name.renumber l.line)) := by
  refine .get fun m => ?_
  simp only [Machine.ahead_heap, Heap.renumber_objects, Name.renumber_text, Heap.method?_renumber]
  cases m.heap.objects[id']? with
  | none => exact .fail name.line _
  | some object =>
    dsimp only
    cases object.fields.get? name.text with
    | some value => exact .pure rfl
    | none =>
      dsimp only
      cases m.heap.method? object.classId name.text with
      | some method => exact bindMethod_parallel method id'
      | none => exact .fail name.line _

theorem setField_parallel (id' : ObjectId) (name : Bytes) (value : Value) :
    Parallel l id (setField id' name value) (setField id' name value) :=
  .modify (fun _ => ⟨rfl, rfl, rfl⟩) fun _ => rfl

theorem superMethod_parallel (line : Nat) (method : Name) :
    Parallel l id (superMethod line method) (superMethod (l.line line) (method.renumber l.line)) := by
  refine (lookup_parallel ⟨superName, line⟩).bind fun value => ?_
  cases value with
  | classRef parent =>
    refine (lookup_parallel ⟨thisName, line⟩).bind fun this => ?_
    refine (expectObject_parallel line _ this).bind fun receiver => .get fun m => ?_
    simp only [Machine.ahead_heap, Name.renumber_text, Heap.method?_renumber]
    cases m.heap.method? parent method.text with
    | some found => exact bindMethod_parallel found receiver
    | none => exact .fail method.line _
  | _ => exact .fail line _

theorem print_parallel (value : Value) : Parallel l id (print value) (print value) := by
  refine .modify (fun _ => ⟨rfl, rfl, rfl⟩) fun m => ?_
  simp [Machine.ahead, Heap.render_renumber]

theorem readClock_parallel : Parallel l id readClock readClock := by
  intro m hm
  have hrun : readClock (m.ahead l) =
      (.ok (.number (m.clock m.readings)), { m with readings := m.readings + 1 }.ahead l) := by
    show (Except.ok (Value.number (l.clock (l.readings + m.readings))), _) = _
    rw [hm m.readings]
    rfl
  rw [hrun]
  exact .ok ⟨rfl, rfl, rfl⟩ rfl

theorem checkCall_parallel (callee : Value) (count line : Nat) :
    Parallel l id (checkCall callee count line) (checkCall callee count (l.line line)) := by
  refine .get fun m => ?_
  simp only [Machine.ahead_heap, Heap.arity?_renumber]
  cases m.heap.arity? callee with
  | none => exact .fail line _
  | some arity =>
    dsimp only
    by_cases hcount : count ≠ arity
    · rw [if_pos hcount, if_pos hcount]
      exact .fail line _
    · rw [if_neg hcount, if_neg hcount]
      by_cases hdepth : maxDepth ≤ m.depth
      · have hdepth' : maxDepth ≤ (m.ahead l).depth := hdepth
        rw [if_pos hdepth, if_pos hdepth']
        exact .fail line _
      · have hdepth' : ¬ maxDepth ≤ (m.ahead l).depth := hdepth
        rw [if_neg hdepth, if_neg hdepth']
        exact .pure rfl

theorem callResult_parallel (c : Closure) (completion : Completion) :
    Parallel l id (callResult c completion) (callResult (c.renumber l.line) completion) := by
  unfold callResult
  show Parallel l id _ (if c.isInitializer = true then _ else _)
  split
  · exact .get fun m => .pure rfl
  · cases completion with
    | normal => exact .pure rfl
    | returned value => exact .pure rfl

/-! ## Classes -/

theorem superclass_parallel (parent : Option Name) :
    Parallel l id (superclass parent) (superclass (parent.map (Name.renumber l.line))) := by
  cases parent with
  | none => exact .pure rfl
  | some name =>
    refine (lookup_parallel name).bind fun value => ?_
    cases value with
    | classRef id => exact .pure rfl
    | _ => exact .fail name.line _

theorem methodTable_renumber (f : Nat → Nat) (scope : ScopeId) (methods : List FunctionDecl) :
    methodTable scope (methods.map (FunctionDecl.renumber f)) = (methodTable scope methods).map (Closure.renumber f) := by
  have hfold : ∀ table : Table Closure,
      (methods.map (FunctionDecl.renumber f)).foldl
        (fun table d => table.insert d.name.text ⟨d, scope, d.name.text == initializerName⟩)
        (table.map (Closure.renumber f)) =
      (methods.foldl (fun table d => table.insert d.name.text ⟨d, scope, d.name.text == initializerName⟩) table).map
        (Closure.renumber f) := by
    induction methods with
    | nil => exact fun _ => rfl
    | cons d methods ih =>
      intro table
      rw [List.map_cons, List.foldl_cons, List.foldl_cons, ← ih, Table.map_insert]
      simp [Closure.renumber]
  exact hfold Table.empty

/-- Line numbers play no part in the declaration of a class. -/
theorem declareClass_parallel (name : Bytes) (parent : Option ClassId) (methods : List FunctionDecl) :
    Parallel l id (declareClass name parent methods)
      (declareClass name parent (methods.map (FunctionDecl.renumber l.line))) := by
  have hrest : ∀ scope, Parallel l id (newClass ⟨name, parent, methodTable scope methods⟩ >>= define name)
      (newClass ⟨name, parent, methodTable scope (methods.map (FunctionDecl.renumber l.line))⟩ >>= define name) := by
    intro scope
    rw [methodTable_renumber]
    exact (newClass_parallel ⟨name, parent, methodTable scope methods⟩).bind (define_parallel name)
  cases parent with
  | none =>
    rw [declareClass_base, declareClass_base]
    exact .get fun m => hrest m.scope
  | some id =>
    rw [declareClass_derived, declareClass_derived]
    exact .get fun m => (newScope_parallel m.scope _).bind hrest

end Eval

/-! ## Evaluation -/

open Eval

theorem Scopes.bindAll_renumber (f : Nat → Nat) (bindings : Table Value) (parameters : List Name) (args : List Value) :
    Scopes.bindAll bindings (parameters.map (Name.renumber f)) args = Scopes.bindAll bindings parameters args := by
  induction parameters generalizing bindings args with
  | nil => rfl
  | cons n ns ih =>
    cases args with
    | nil => rfl
    | cons v vs => exact ih (bindings.insert n.text v) vs

/-- Evaluation that may nest `n` deep is parallel to that of the same code with other line numbers. -/
structure Follows (l : Lead) (n : Nat) : Prop where
  expr : ∀ e : Expr, Parallel l id (evalExpr n e) (evalExpr n (e.renumber l.line))
  exprs : ∀ es : List Expr, Parallel l id (evalExprs n es) (evalExprs n (es.map (Expr.renumber l.line)))
  call : ∀ (callee : Value) (args : List Value), Parallel l id (callValue n callee args) (callValue n callee args)
  closure : ∀ (c : Closure) (args : List Value),
    Parallel l id (callClosure n c args) (callClosure n (c.renumber l.line) args)
  stmt : ∀ s : Stmt, Parallel l id (execStmt n s) (execStmt n (s.renumber l.line))
  stmts : ∀ ss : List Stmt, Parallel l id (execStmts n ss) (execStmts n (ss.map (Stmt.renumber l.line)))
  loop : ∀ (condition : Expr) (body : Stmt),
    Parallel l id (execLoop n condition body) (execLoop n (condition.renumber l.line) (body.renumber l.line))

section

variable {l : Lead} {n : Nat}

theorem evalExpr_parallel (ih : Follows l n) (e : Expr) :
    Parallel l id (evalExpr (n + 1) e) (evalExpr (n + 1) (e.renumber l.line)) := by
  cases e with
  | literal v => exact .pure rfl
  | var name => exact lookup_parallel name
  | assign name e => exact (ih.expr e).bind fun value => (assign_parallel name value).bind fun _ => .pure rfl
  | unary op line e => exact (ih.expr e).bind (applyUnary_parallel op line)
  | binary op line left right =>
    exact (ih.expr left).bind fun a => (ih.expr right).bind fun b => applyBinary_parallel op line a b
  | logical op left right =>
    refine (ih.expr left).bind fun value => ?_
    show Parallel l id (if decides op value = true then _ else _) (if decides op value = true then _ else _)
    cases decides op value with
    | true => exact .pure rfl
    | false => exact ih.expr right
  | call f args line =>
    refine (ih.expr f).bind fun callee => ?_
    show Parallel l id _ (evalExprs n (Expr.renumberAll l.line args) >>= _)
    rw [Expr.renumberAll_eq]
    refine (ih.exprs args).bind fun values => (checkCall_parallel callee values.length line).bind fun _ => ?_
    exact (ih.call callee values).deeper
  | get o name =>
    refine (ih.expr o).bind fun value => (expectObject_parallel name.line _ value).bind fun object => ?_
    exact getProperty_parallel object name
  | set o name e =>
    refine (ih.expr o).bind fun value => (expectObject_parallel name.line _ value).bind fun object => ?_
    exact (ih.expr e).bind fun value' => (setField_parallel object name.text value').bind fun _ => .pure rfl
  | this line => exact lookup_parallel ⟨thisName, line⟩
  | super line method => exact superMethod_parallel line method
  | group e => exact ih.expr e

theorem evalExprs_parallel (ih : Follows l n) (es : List Expr) :
    Parallel l id (evalExprs (n + 1) es) (evalExprs (n + 1) (es.map (Expr.renumber l.line))) := by
  cases es with
  | nil => exact .pure rfl
  | cons e es => exact (ih.expr e).bind fun _ => (ih.exprs es).bind fun _ => .pure rfl

theorem callValue_parallel (ih : Follows l n) (callee : Value) (args : List Value) :
    Parallel l id (callValue (n + 1) callee args) (callValue (n + 1) callee args) := by
  cases callee with
  | function id' =>
    refine .get fun m => ?_
    simp only [Machine.ahead_heap, Heap.functions_renumber]
    cases m.heap.functions[id']? with
    | some c => exact ih.closure c args
    | none => exact .pure rfl
  | clock => exact readClock_parallel
  | classRef id' =>
    refine (newObject_parallel id').bind fun object => .get fun m => ?_
    simp only [Machine.ahead_heap, Heap.method?_renumber]
    cases m.heap.method? id' initializerName with
    | some method =>
      refine (bindReceiver_parallel method object).bind fun c => ?_
      exact (ih.closure c args).bind fun _ => .pure rfl
    | none => exact .pure rfl
  | _ => exact .pure rfl

theorem callClosure_parallel (ih : Follows l n) (c : Closure) (args : List Value) :
    Parallel l id (callClosure (n + 1) c args) (callClosure (n + 1) (c.renumber l.line) args) := by
  unfold callClosure
  dsimp only [Closure.renumber]
  rw [FunctionDecl.renumber_parameters, FunctionDecl.renumber_body, Scopes.bindAll_renumber]
  refine (newScope_parallel c.scope _).bind fun scope => ?_
  exact ((ih.stmts c.declaration.body).inScope scope).bind (callResult_parallel c)

theorem execStmt_parallel (ih : Follows l n) (s : Stmt) :
    Parallel l id (execStmt (n + 1) s) (execStmt (n + 1) (s.renumber l.line)) := by
  cases s with
  | expression e => exact (ih.expr e).bind fun _ => .pure rfl
  | print e => exact (ih.expr e).bind fun value => (print_parallel value).bind fun _ => .pure rfl
  | var name init =>
    have hdefine : ∀ value, Parallel l id (define name.text value >>= fun _ => pure Completion.normal)
        (define name.text value >>= fun _ => pure Completion.normal) :=
      fun value => (define_parallel name.text value).bind fun _ => .pure rfl
    cases init with
    | none => exact hdefine .nil
    | some e => exact (ih.expr e).bind hdefine
  | block body =>
    simp only [Stmt.renumber, Stmt.renumberAll_eq]
    exact .get fun m => (newScope_parallel m.scope _).bind fun scope => (ih.stmts body).inScope scope
  | ifElse c t e =>
    rw [Stmt.renumber_ifElse]
    refine (ih.expr c).bind fun value => ?_
    show Parallel l id (if value.truthy = true then _ else _) (if value.truthy = true then _ else _)
    cases value.truthy with
    | true => exact ih.stmt t
    | false =>
      cases e with
      | none => exact .pure rfl
      | some e => exact ih.stmt e
  | loop c b => exact ih.loop c b
  | function d =>
    refine .get fun m => (newFunction_parallel ⟨d, m.scope, false⟩).bind fun value => ?_
    rw [FunctionDecl.renumber_name]
    exact (define_parallel d.name.text value).bind fun _ => .pure rfl
  | ret v =>
    cases v with
    | none => exact .pure rfl
    | some e => exact (ih.expr e).bind fun _ => .pure rfl
  | classDecl name parent methods =>
    simp only [Stmt.renumber, FunctionDecl.renumberAll_eq]
    refine (superclass_parallel parent).bind fun id' => ?_
    exact (declareClass_parallel name.text id' methods).bind fun _ => .pure rfl

theorem execStmts_parallel (ih : Follows l n) (ss : List Stmt) :
    Parallel l id (execStmts (n + 1) ss) (execStmts (n + 1) (ss.map (Stmt.renumber l.line))) := by
  cases ss with
  | nil => exact .pure rfl
  | cons s ss =>
    refine (ih.stmt s).bind fun completion => ?_
    cases completion with
    | normal => exact ih.stmts ss
    | returned value => exact .pure rfl

theorem execLoop_parallel (ih : Follows l n) (condition : Expr) (body : Stmt) :
    Parallel l id (execLoop (n + 1) condition body)
      (execLoop (n + 1) (condition.renumber l.line) (body.renumber l.line)) := by
  refine (ih.expr condition).bind fun value => ?_
  show Parallel l id (if value.truthy = true then _ else _) (if value.truthy = true then _ else _)
  cases value.truthy with
  | false => exact .pure rfl
  | true =>
    refine (ih.stmt body).bind fun completion => ?_
    cases completion with
    | normal => exact ih.loop condition body
    | returned value => exact .pure rfl

/-- However deep it nests, code with other line numbers follows. -/
theorem follows (l : Lead) (n : Nat) : Follows l n := by
  induction n with
  | zero =>
    exact ⟨fun _ => .exhausted, fun _ => .exhausted, fun _ _ => .exhausted, fun _ _ => .exhausted, fun _ => .exhausted,
      fun _ => .exhausted, fun _ _ => .exhausted⟩
  | succ n ih =>
    exact ⟨evalExpr_parallel ih, evalExprs_parallel ih, callValue_parallel ih, callClosure_parallel ih,
      execStmt_parallel ih, execStmts_parallel ih, execLoop_parallel ih⟩

/-- A program with other line numbers does the same, at these lines. -/
theorem execProgram_parallel (l : Lead) (fuel : Nat) (program : List Stmt) :
    Parallel l id (execProgram fuel program) (execProgram fuel (program.map (Stmt.renumber l.line))) := by
  induction program with
  | nil => exact .pure rfl
  | cons s rest ih => exact ((follows l fuel).stmt s).bind fun _ => ih

/-- A call leaves as many calls in progress as it found. -/
theorem callValue_steady (n : Nat) (callee : Value) (args : List Value) (m : Machine) :
    m.Steady (callValue n callee args m).2 := by
  have hfits : Lead.Fits ⟨id, #[], 0, m.clock⟩ m := fun i => congrArg m.clock (Nat.zero_add i)
  exact ((follows _ n).call callee args m hfits).eq.1

/-- A program leaves scope, depth and clock as they were. -/
theorem execProgram_steady (fuel : Nat) (program : List Stmt) (m : Machine) :
    m.Steady (execProgram fuel program m).2 := by
  have hfits : Lead.Fits ⟨id, #[], 0, m.clock⟩ m := fun i => congrArg m.clock (Nat.zero_add i)
  exact (execProgram_parallel _ fuel program m hfits).eq.1

end

end Lox
