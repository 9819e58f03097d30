/-
  Lox.Proofs.Eval.Renamed — running a program under other names. Scopes, fields and methods
  are found by name, so on the renamed heap a new name finds what the old one found before:
  a renaming is injective. Nothing else looks at a name but `print`, which shows the names
  of functions and classes. So two runs, of a program and of the renamed one, keep in step
  (`execProgram_echoes`): their machines are twins, which differ by the names in the heap and
  in what was printed. Each pair of printed lines shows one value, the one that a print
  statement of the first run printed there (`Prints`).
-/

import Lox.Proofs.Eval.Parallel
import Lox.Proofs.Eval.Parts
import Lox.Proofs.Renaming

namespace Lox

/-! ## Tables and heaps under other names -/

section

variable (ρ : Renaming)

def Table.rename {α : Type} (t : Table α) : Table α := ⟨t.entries.map fun e => (ρ.apply e.1, e.2)⟩

namespace Table

variable {α : Type} (t : Table α)

theorem get?_rename (name : Bytes) : (t.rename ρ).get? (ρ.apply name) = t.get? name := by
  obtain ⟨entries⟩ := t
  unfold Table.rename Table.get?
  induction entries with
  | nil => rfl
  | cons e rest ih =>
    obtain ⟨n, a⟩ := e
    have hkey : (ρ.apply name == ρ.apply n) = (name == n) := by
      rw [Bool.eq_iff_iff, beq_iff_eq, beq_iff_eq, ρ.apply_inj]
    simp only [List.map_cons, List.lookup_cons, hkey]
    cases name == n with
    | true => rfl
    | false => exact ih

theorem contains_rename (name : Bytes) : (t.rename ρ).contains (ρ.apply name) = t.contains name := by
  unfold Table.contains
  rw [get?_rename]

theorem rename_insert (name : Bytes) (a : α) : (t.insert name a).rename ρ = (t.rename ρ).insert (ρ.apply name) a := by
  obtain ⟨entries⟩ := t
  have hentries : (insertInto name a entries).map (fun e => (ρ.apply e.1, e.2)) =
      insertInto (ρ.apply name) a (entries.map fun e => (ρ.apply e.1, e.2)) := by
    induction entries with
    | nil => rfl
    | cons e rest ih =>
      simp only [insertInto, List.map_cons, beq_iff_eq, ρ.apply_inj]
      split
      · rfl
      · rw [List.map_cons, ih]
  exact congrArg Table.mk hentries

@[simp] theorem rename_empty : (Table.empty : Table α).rename ρ = .empty := rfl

end Table

def Closure.rename (c : Closure) : Closure := { c with declaration := c.declaration.rename ρ }

def ClassInfo.rename (info : ClassInfo) : ClassInfo :=
  { info with name := ρ.apply info.name, methods := (info.methods.map (Closure.rename ρ)).rename ρ }

def Object.rename (o : Object) : Object := { o with fields := o.fields.rename ρ }

def Scope.rename (s : Scope) : Scope := { s with bindings := s.bindings.rename ρ }

def Scopes.rename (s : Scopes) : Scopes := ⟨s.all.map (Scope.rename ρ)⟩

def Heap.rename (h : Heap) : Heap where
  scopes := h.scopes.rename ρ
  functions := h.functions.map (Closure.rename ρ)
  classes := h.classes.map (ClassInfo.rename ρ)
  objects := h.objects.map (Object.rename ρ)

def Halt.rename : Halt → Halt
  | .fault e => .fault (e.rename ρ)
  | .exhausted => .exhausted

theorem Closure.arity_rename (c : Closure) : (c.rename ρ).arity = c.arity := by
  simp [Closure.arity, Closure.rename]

theorem map_modify {α β : Type} {f : α → β} {u : α → α} {v : β → β} (h : ∀ a, f (u a) = v (f a)) (as : Array α)
    (i : Nat) : (as.modify i u).map f = (as.map f).modify i v := by
  refine Array.ext_getElem? fun j => ?_
  simp only [Array.getElem?_map, Array.getElem?_modify]
  split
  · rw [Option.map_map, Option.map_map]
    exact congrFun (congrArg Option.map (funext h)) _
  · rfl

namespace Scopes

variable (s : Scopes)

theorem all_rename (id : ScopeId) : (s.rename ρ).all[id]? = s.all[id]?.map (Scope.rename ρ) := by
  simp [Scopes.rename]

theorem holderWithin?_rename (name : Bytes) (bound : Nat) (id : ScopeId) :
    (s.rename ρ).holderWithin? (ρ.apply name) bound id = s.holderWithin? name bound id := by
  induction bound generalizing id with
  | zero => rfl
  | succ bound ih =>
    unfold Scopes.holderWithin?
    rw [all_rename]
    cases s.all[id]? with
    | none => rfl
    | some scope =>
      dsimp only [Option.map_some, Scope.rename]
      rw [Table.contains_rename]
      cases scope.enclosing with
      | none => rfl
      | some outer =>
        dsimp only
        rw [ih]

/-- A name is bound in the same scope under its new text. -/
theorem holder?_rename (id : ScopeId) (name : Bytes) : (s.rename ρ).holder? id (ρ.apply name) = s.holder? id name :=
  holderWithin?_rename ρ s name (id + 1) id

theorem own?_rename (id : ScopeId) (name : Bytes) : (s.rename ρ).own? id (ρ.apply name) = s.own? id name := by
  unfold Scopes.own?
  rw [all_rename]
  cases s.all[id]? with
  | none => rfl
  | some scope => exact Table.get?_rename ρ scope.bindings name

theorem get?_rename (id : ScopeId) (name : Bytes) : (s.rename ρ).get? id (ρ.apply name) = s.get? id name := by
  unfold Scopes.get?
  rw [holder?_rename]
  exact congrArg _ (funext fun holder => own?_rename ρ s holder name)

theorem define_rename (id : ScopeId) (name : Bytes) (value : Value) :
    (s.define id name value).rename ρ = (s.rename ρ).define id (ρ.apply name) value := by
  have hall : (s.all.modify id fun scope => { scope with bindings := scope.bindings.insert name value }).map
        (Scope.rename ρ) =
      (s.all.map (Scope.rename ρ)).modify id fun scope =>
        { scope with bindings := scope.bindings.insert (ρ.apply name) value } :=
    map_modify (fun scope => congrArg (Scope.mk scope.enclosing) (Table.rename_insert ρ scope.bindings name value)) _ _
  exact congrArg Scopes.mk hall

theorem push_rename (scope : Scope) : (s.push scope).rename ρ = (s.rename ρ).push (scope.rename ρ) := by
  simp [Scopes.rename, Scopes.push]

theorem next_rename : (s.rename ρ).next = s.next := by
  simp [Scopes.rename, Scopes.next]

theorem bindAll_rename (bindings : Table Value) (parameters : List Name) (args : List Value) :
    bindAll (bindings.rename ρ) (parameters.map (Name.rename ρ)) args = (bindAll bindings parameters args).rename ρ := by
  induction parameters generalizing bindings args with
  | nil => rfl
  | cons n ns ih =>
    cases args with
    | nil => rfl
    | cons v vs =>
      rw [bindAll, ← ih, Table.rename_insert]
      rfl

end Scopes

namespace Heap

variable (h : Heap)

theorem initial_rename : Heap.initial.rename ρ = .initial := by
  have hclock : Table.rename ρ (Table.empty.insert clockName Value.clock) = Table.empty.insert clockName .clock := by
    rw [Table.rename_insert, ρ.apply_clock, Table.rename_empty]
  simp [Heap.rename, Heap.initial, Scopes.rename, Scope.rename, hclock]

theorem functions_rename (id : FunctionId) : (h.rename ρ).functions[id]? = h.functions[id]?.map (Closure.rename ρ) := by
  simp [Heap.rename]

theorem classes_rename (id : ClassId) : (h.rename ρ).classes[id]? = h.classes[id]?.map (ClassInfo.rename ρ) := by
  simp [Heap.rename]

theorem objects_rename (id : ObjectId) : (h.rename ρ).objects[id]? = h.objects[id]?.map (Object.rename ρ) := by
  simp [Heap.rename]

theorem methodWithin?_rename (name : Bytes) (bound : Nat) (id : ClassId) :
    (h.rename ρ).methodWithin? (ρ.apply name) bound id = (h.methodWithin? name bound id).map (Closure.rename ρ) := by
  induction bound generalizing id with
  | zero => rfl
  | succ bound ih =>
    unfold Heap.methodWithin?
    rw [classes_rename]
    cases h.classes[id]? with
    | none => rfl
    | some info =>
      have hget : (info.rename ρ).methods.get? (ρ.apply name) = (info.methods.get? name).map (Closure.rename ρ) :=
        (Table.get?_rename ρ _ name).trans (Table.get?_map _ _ name)
      simp only [Option.map_some, hget]
      cases info.methods.get? name with
      | some method => rfl
      | none =>
        dsimp only [ClassInfo.rename, Option.map_none]
        cases info.superclass with
        | none => rfl
        | some parent => exact ih parent

theorem method?_rename (id : ClassId) (name : Bytes) :
    (h.rename ρ).method? id (ρ.apply name) = (h.method? id name).map (Closure.rename ρ) :=
  methodWithin?_rename ρ h name (id + 1) id

theorem initializer_rename (id : ClassId) :
    (h.rename ρ).method? id initializerName = (h.method? id initializerName).map (Closure.rename ρ) := by
  have hmethod := h.method?_rename ρ id initializerName
  rwa [ρ.apply_initializer] at hmethod

theorem arity?_rename (v : Value) : (h.rename ρ).arity? v = h.arity? v := by
  have harity : Closure.arity ∘ Closure.rename ρ = Closure.arity := funext (Closure.arity_rename ρ)
  cases v with
  | function id =>
    show (h.rename ρ).functions[id]?.map Closure.arity = _
    rw [functions_rename, Option.map_map, harity]
    rfl
  | classRef id =>
    show some (((h.rename ρ).method? id initializerName).map Closure.arity |>.getD 0) = _
    rw [initializer_rename, Option.map_map, harity]
    rfl
  | _ => rfl

/-- A value as programs print it, with other names for functions and classes. -/
def renderAs : Value → Bytes
  | .function id => utf8 "<fn " ++ (h.functions[id]?.map (ρ.apply ·.declaration.name.text)).getD [] ++ utf8 ">"
  | .classRef id => ρ.apply (h.className id)
  | .object id => (h.objects[id]?.map fun o => ρ.apply (h.className o.classId)).getD [] ++ utf8 " instance"
  | v => h.render v

theorem className_rename (id : ClassId) : (h.rename ρ).className id = ρ.apply (h.className id) := by
  unfold Heap.className
  rw [classes_rename]
  cases h.classes[id]? with
  | none =>
    have hnil : ρ.apply [] = [] := ρ.apply_other (by decide)
    exact hnil.symm
  | some info => rfl

/-- Only the names of functions and classes are printed otherwise. -/
theorem render_rename (v : Value) : (h.rename ρ).render v = h.renderAs ρ v := by
  cases v with
  | function id =>
    show utf8 "<fn " ++ ((h.rename ρ).functions[id]?.map (·.declaration.name.text)).getD [] ++ utf8 ">" = _
    rw [functions_rename, Option.map_map]
    have hname : (fun c : Closure => c.declaration.name.text) ∘ Closure.rename ρ =
        fun c => ρ.apply c.declaration.name.text := by
      funext c
      simp [Closure.rename]
    rw [hname]
    rfl
  | classRef id => exact className_rename ρ h id
  | object id =>
    show ((h.rename ρ).objects[id]?.map fun o => (h.rename ρ).className o.classId).getD [] ++ utf8 " instance" = _
    rw [objects_rename, Option.map_map]
    simp only [className_rename]
    rfl
  | _ => rfl

end Heap

end

/-! ## Twins -/

/-- The evaluation comes to a print statement that prints `v` while the heap is `h`, as
line `i` counted from 0. -/
def Evaluation.Prints (run : Evaluation) (i : Nat) (h : Heap) (v : Value) : Prop :=
  ∃ n e m m', Visits run ⟨n + 1, .stmt (.print e), m⟩ ∧ evalExpr n e m = (.ok v, m') ∧ m'.printed.size = i ∧ m'.heap = h

/-- The machines of two runs, the second of which has other names. -/
structure Machine.Twins (ρ : Renaming) (run : Evaluation) (m m' : Machine) : Prop where
  heap : m'.heap = m.heap.rename ρ
  scope : m'.scope = m.scope
  depth : m'.depth = m.depth
  clock : m'.clock = m.clock
  readings : m'.readings = m.readings
  count : m'.printed.size = m.printed.size
  lines : ∀ i line, m.printed[i]? = some line →
    ∃ h v, run.Prints i h v ∧ line = h.render v ∧ m'.printed[i]? = some (h.renderAs ρ v)

namespace Eval

variable {α β γ δ : Type}

inductive Echo (ρ : Renaming) (run : Evaluation) (g : α → β) : Except Halt α × Machine → Except Halt β × Machine → Prop
  | ok {a : α} {b : β} {m m' : Machine} : m.Twins ρ run m' → b = g a → Echo ρ run g (.ok a, m) (.ok b, m')
  | error {halt : Halt} {m m' : Machine} :
      m.Twins ρ run m' → Echo ρ run g (.error halt, m) (.error (halt.rename ρ), m')

/-- How the second ends is settled by how the first does. -/
theorem Echo.eq {ρ : Renaming} {run : Evaluation} {out out' : Except Halt α × Machine} (h : Echo ρ run id out out') :
    out'.1 = out.1.mapError (Halt.rename ρ) ∧ out.2.Twins ρ run out'.2 := by
  cases h with
  | ok htwins hb => exact ⟨congrArg Except.ok hb, htwins⟩
  | error htwins => exact ⟨rfl, htwins⟩

/-- From `m` and any twin of it, the second does what the first does. -/
def Echoes (ρ : Renaming) (run : Evaluation) (g : α → β) (m : Machine) (x : Eval α) (y : Eval β) : Prop :=
  ∀ m', m.Twins ρ run m' → Echo ρ run g (x m) (y m')

variable {ρ : Renaming} {run : Evaluation} {m : Machine}

section

variable {g : α → β} {k : γ → δ} {x : Eval α} {y : Eval β}

theorem Echoes.pure {a : α} {b : β} (h : b = g a) : Echoes ρ run g m (pure a) (pure b) := fun _ hm => .ok hm h

theorem Echoes.fail (line : Nat) (fault : RuntimeFault) :
    Echoes ρ run g m (fail line fault) (fail line (fault.rename ρ)) :=
  fun _ hm => .error hm

theorem Echoes.exhausted : Echoes ρ run g m exhausted exhausted := fun _ hm => .error hm

/-- What follows starts where the first step got to. -/
theorem Echoes.bind {u : α → Eval γ} {v : β → Eval δ} (hx : Echoes ρ run g m x y)
    (hu : ∀ a m₁, x m = (.ok a, m₁) → Echoes ρ run k m₁ (u a) (v (g a))) : Echoes ρ run k m (x >>= u) (y >>= v) := by
  intro m' hm
  have hecho := hx m' hm
  rw [bind_run, bind_run]
  rcases hxm : x m with ⟨a | a, m₁⟩ <;> rw [hxm] at hecho <;> rcases hym : y m' with ⟨b | b, m₁'⟩ <;> rw [hym] at hecho <;>
    cases hecho
  · rename_i htwins
    exact .error htwins
  · rename_i hb htwins
    subst hb
    exact hu a m₁ hxm m₁' htwins

theorem Echoes.get {u : Machine → Eval γ} {v : Machine → Eval δ}
    (h : ∀ m', m.Twins ρ run m' → Echoes ρ run k m (u m) (v m')) :
    Echoes ρ run k m (MonadState.get >>= u) (MonadState.get >>= v) := by
  intro m' hm
  rw [get_bind, get_bind]
  exact h m' hm m' hm

theorem Echoes.inScope (scope : ScopeId) (h : Echoes ρ run g { m with scope } x y) :
    Echoes ρ run g m (inScope scope x) (inScope scope y) := by
  intro m' hm
  have hecho := h { m' with scope } { hm with scope := rfl }
  rcases hx : x { m with scope } with ⟨a, m₁⟩
  rcases hy : y { m' with scope } with ⟨b, m₁'⟩
  rw [inScope_run hx, inScope_run hy]
  rw [hx, hy] at hecho
  cases hecho with
  | ok htwins hb => exact .ok { htwins with scope := hm.scope } hb
  | error htwins => exact .error { htwins with scope := hm.scope }

theorem Echoes.deeper (h : Echoes ρ run g { m with depth := m.depth + 1 } x y) :
    Echoes ρ run g m (deeper x) (deeper y) := by
  intro m' hm
  have hecho := h { m' with depth := m'.depth + 1 } { hm with depth := congrArg (· + 1) hm.depth }
  rcases hx : x { m with depth := m.depth + 1 } with ⟨a, m₁⟩
  rcases hy : y { m' with depth := m'.depth + 1 } with ⟨b, m₁'⟩
  rw [deeper_run hx, deeper_run hy]
  rw [hx, hy] at hecho
  cases hecho with
  | ok htwins hb => exact .ok { htwins with depth := congrArg (· - 1) htwins.depth } hb
  | error htwins => exact .error { htwins with depth := congrArg (· - 1) htwins.depth }

/-- A step that changes nothing but the heap. -/
theorem Echoes.modify {u v : Machine → Heap} (h : ∀ m', m.Twins ρ run m' → v m' = (u m).rename ρ) :
    Echoes ρ run id m (modify fun m => { m with heap := u m }) (modify fun m => { m with heap := v m }) :=
  fun m' hm => .ok { hm with heap := h m' hm } rfl

theorem Echoes.modifyGet {u v : Machine → Heap} {p q : Machine → α}
    (h : ∀ m', m.Twins ρ run m' → v m' = (u m).rename ρ ∧ q m' = p m) :
    Echoes ρ run id m (modifyGet fun m => (p m, { m with heap := u m })) (modifyGet fun m => (q m, { m with heap := v m })) :=
  fun m' hm => .ok { hm with heap := (h m' hm).1 } (h m' hm).2

end

/-! ## Names -/

theorem lookup_echoes (name : Name) : Echoes ρ run id m (lookup name) (lookup (name.rename ρ)) := by
  refine .get fun m' hm => ?_
  rw [hm.heap, hm.scope, Name.rename_text]
  dsimp only [Heap.rename]
  rw [Scopes.get?_rename]
  cases m.heap.scopes.get? m.scope name.text with
  | some value => exact .pure rfl
  | none => exact .fail name.line _

/-- A word that is no identifier is looked up as it is. -/
theorem lookup_word_echoes {word : Bytes} (hword : ρ.apply word = word) (line : Nat) :
    Echoes ρ run id m (lookup ⟨word, line⟩) (lookup ⟨word, line⟩) := by
  have hlookup : Echoes ρ run id m (lookup ⟨word, line⟩) (lookup (Name.rename ρ ⟨word, line⟩)) := lookup_echoes _
  rwa [Name.rename, hword] at hlookup

theorem assign_echoes (name : Name) (value : Value) :
    Echoes ρ run id m (assign name value) (assign (name.rename ρ) value) := by
  intro m' hm
  have hrenamed : m'.heap.scopes.holder? m'.scope (name.rename ρ).text = m.heap.scopes.holder? m.scope name.text := by
    rw [hm.heap, hm.scope, Name.rename_text]
    exact Scopes.holder?_rename ..
  cases hholder : m.heap.scopes.holder? m.scope name.text with
  | some holder =>
    rw [assign_bound hholder, assign_bound (hrenamed.trans hholder)]
    refine .ok { hm with heap := ?_ } rfl
    dsimp only
    rw [hm.heap]
    simp [Heap.rename, Scopes.define_rename]
  | none =>
    rw [assign_unbound hholder, assign_unbound (hrenamed.trans hholder)]
    exact .error hm

theorem define_echoes (name : Bytes) (value : Value) :
    Echoes ρ run id m (define name value) (define (ρ.apply name) value) := by
  refine .modify fun m' hm => ?_
  rw [hm.heap, hm.scope]
  simp [Heap.rename, Scopes.define_rename]

/-! ## New things -/

theorem newScope_echoes (enclosing : ScopeId) (bindings : Table Value) :
    Echoes ρ run id m (newScope enclosing bindings) (newScope enclosing (bindings.rename ρ)) := by
  refine .modifyGet fun m' hm => ?_
  rw [hm.heap]
  simp [Heap.rename, Scopes.push_rename, Scopes.next_rename, Scope.rename]

/-- A scope that binds a word that is no identifier. -/
theorem newBinding_echoes (enclosing : ScopeId) {word : Bytes} (hword : ρ.apply word = word) (value : Value) :
    Echoes ρ run id m (newScope enclosing (Table.empty.insert word value))
      (newScope enclosing (Table.empty.insert word value)) := by
  have hscope : Echoes ρ run id m (newScope enclosing (Table.empty.insert word value))
      (newScope enclosing (Table.rename ρ (Table.empty.insert word value))) := newScope_echoes _ _
  rwa [Table.rename_insert, hword, Table.rename_empty] at hscope

theorem newFunction_echoes (c : Closure) : Echoes ρ run id m (newFunction c) (newFunction (c.rename ρ)) := by
  refine .modifyGet fun m' hm => ?_
  rw [hm.heap]
  simp [Heap.rename]

theorem newClass_echoes (info : ClassInfo) : Echoes ρ run id m (newClass info) (newClass (info.rename ρ)) := by
  refine .modifyGet fun m' hm => ?_
  rw [hm.heap]
  simp [Heap.rename]

theorem newObject_echoes (classId : ClassId) : Echoes ρ run id m (newObject classId) (newObject classId) := by
  refine .modifyGet fun m' hm => ?_
  rw [hm.heap]
  simp [Heap.rename, Object.rename, show ({} : Table Value).rename ρ = {} from rfl]

theorem bindReceiver_echoes (method : Closure) (receiver : ObjectId) :
    Echoes ρ run (Closure.rename ρ) m (bindReceiver method receiver) (bindReceiver (method.rename ρ) receiver) :=
  (newBinding_echoes method.scope ρ.apply_this _).bind fun _ _ _ => .pure rfl

theorem bindMethod_echoes (method : Closure) (receiver : ObjectId) :
    Echoes ρ run id m (bindMethod method receiver) (bindMethod (method.rename ρ) receiver) :=
  (bindReceiver_echoes method receiver).bind fun c _ _ => newFunction_echoes c

/-! ## Operators and objects -/

theorem numbers_echoes (line : Nat) (op : Float → Float → Value) (left right : Value) :
    Echoes ρ run id m (numbers line op left right) (numbers line op left right) := by
  unfold numbers
  split
  · exact .pure rfl
  · exact .fail line _

theorem applyUnary_echoes (op : UnaryOp) (line : Nat) (v : Value) :
    Echoes ρ run id m (applyUnary op line v) (applyUnary op line v) := by
  unfold applyUnary
  split
  · exact .pure rfl
  · exact .pure rfl
  · exact .fail line _

theorem applyBinary_echoes (op : BinaryOp) (line : Nat) (left right : Value) :
    Echoes ρ run id m (applyBinary op line left right) (applyBinary op line left right) := by
  cases op with
  | equal => exact .pure rfl
  | notEqual => exact .pure rfl
  | add =>
    simp only [applyBinary]
    split
    · exact .pure rfl
    · exact .pure rfl
    · exact .fail line _
  | _ => exact numbers_echoes line _ left right

theorem expectObject_echoes (line : Nat) {fault : RuntimeFault} (hfault : fault.rename ρ = fault) (v : Value) :
    Echoes ρ run id m (expectObject line fault v) (expectObject line fault v) := by
  unfold expectObject
  split
  · exact .pure rfl
  · have hfail : Echoes ρ run id m (fail line fault : Eval ObjectId) (fail line (fault.rename ρ)) := .fail line fault
    rwa [hfault] at hfail

theorem getProperty_echoes (object : ObjectId) (name : Name) :
    Echoes ρ run id m (getProperty object name) (getProperty object (name.rename ρ)) := by
  refine .get fun m' hm => ?_
  simp only [hm.heap, Heap.objects_rename, Name.rename_text, Name.rename_line, Heap.method?_rename]
  cases m.heap.objects[object]? with
  | none => exact .fail name.line _
  | some o =>
    dsimp only [Option.map_some, Object.rename]
    rw [Table.get?_rename]
    cases o.fields.get? name.text with
    | some value => exact .pure rfl
    | none =>
      dsimp only
      cases m.heap.method? o.classId name.text with
      | some method => exact bindMethod_echoes method object
      | none => exact .fail name.line _

theorem setField_echoes (object : ObjectId) (name : Bytes) (value : Value) :
    Echoes ρ run id m (setField object name value) (setField object (ρ.apply name) value) := by
  refine .modify fun m' hm => ?_
  rw [hm.heap]
  have hobjects : (m.heap.objects.modify object fun o => { o with fields := o.fields.insert name value }).map
        (Object.rename ρ) =
      (m.heap.objects.map (Object.rename ρ)).modify object fun o =>
        { o with fields := o.fields.insert (ρ.apply name) value } :=
    map_modify (fun o => congrArg (Object.mk o.classId) (Table.rename_insert ρ o.fields name value)) _ _
  exact congrArg (Heap.mk _ _ _) hobjects.symm

theorem superMethod_echoes (line : Nat) (method : Name) :
    Echoes ρ run id m (superMethod line method) (superMethod line (method.rename ρ)) := by
  refine (lookup_word_echoes ρ.apply_super line).bind fun value _ _ => ?_
  cases value with
  | classRef parent =>
    refine (lookup_word_echoes ρ.apply_this line).bind fun this _ _ => ?_
    refine (expectObject_echoes line rfl this).bind fun receiver _ _ => .get fun m' hm => ?_
    simp only [hm.heap, Name.rename_text, Heap.method?_rename, id]
    cases Heap.method? _ parent method.text with
    | some found => exact bindMethod_echoes found receiver
    | none => exact .fail method.line _
  | _ => exact .fail line _

/-- What the first prints is noted with its heap, from which the second line follows. -/
theorem print_echoes {value : Value} (h : run.Prints m.printed.size m.heap value) :
    Echoes ρ run id m (print value) (print value) := by
  intro m' hm
  refine .ok { hm with count := ?_, lines := ?_ } rfl
  · simp [hm.count]
  · intro i line hline
    rw [Array.getElem?_push] at hline ⊢
    rw [hm.count]
    split at hline
    · rename_i hi
      refine ⟨m.heap, value, hi ▸ h, (Option.some.inj hline).symm, ?_⟩
      rw [if_pos hi, hm.heap, Heap.render_rename]
    · rename_i hi
      rw [if_neg hi]
      exact hm.lines i line hline

theorem readClock_echoes : Echoes ρ run id m readClock readClock := by
  intro m' hm
  have hm₁ : Machine.Twins ρ run { m with readings := m.readings + 1 } { m' with readings := m'.readings + 1 } :=
    { hm with readings := congrArg (· + 1) hm.readings }
  refine .ok hm₁ ?_
  rw [hm.clock, hm.readings]
  rfl

theorem checkCall_echoes (callee : Value) (count line : Nat) :
    Echoes ρ run id m (checkCall callee count line) (checkCall callee count line) := by
  refine .get fun m' hm => ?_
  rw [hm.heap, hm.depth, Heap.arity?_rename]
  cases m.heap.arity? callee with
  | none => exact .fail line _
  | some arity =>
    dsimp only
    split
    · exact .fail line _
    · split
      · exact .fail line _
      · exact .pure rfl

theorem callResult_echoes (c : Closure) (completion : Completion) :
    Echoes ρ run id m (callResult c completion) (callResult (c.rename ρ) completion) := by
  unfold callResult
  show Echoes ρ run id m _ (if c.isInitializer = true then _ else _)
  split
  · refine .get fun m' hm => .pure ?_
    have hown := m.heap.scopes.own?_rename ρ c.scope thisName
    rw [ρ.apply_this] at hown
    rw [hm.heap]
    exact congrArg (Option.getD · Value.nil) hown
  · cases completion with
    | normal => exact .pure rfl
    | returned value => exact .pure rfl

/-! ## Classes -/

theorem superclass_echoes (parent : Option Name) :
    Echoes ρ run id m (superclass parent) (superclass (parent.map (Name.rename ρ))) := by
  cases parent with
  | none => exact .pure rfl
  | some name =>
    refine (lookup_echoes name).bind fun value _ _ => ?_
    cases value with
    | classRef id => exact .pure rfl
    | _ => exact .fail name.line _

theorem methodTable_rename (ρ : Renaming) (scope : ScopeId) (methods : List FunctionDecl) :
    methodTable scope (methods.map (FunctionDecl.rename ρ)) =
      ((methodTable scope methods).map (Closure.rename ρ)).rename ρ := by
  have hinit : ∀ name : Bytes, (ρ.apply name == initializerName) = (name == initializerName) := by
    intro name
    rw [Bool.eq_iff_iff, beq_iff_eq, beq_iff_eq, ρ.apply_eq_initializer]
  have hfold : ∀ table : Table Closure,
      (methods.map (FunctionDecl.rename ρ)).foldl
        (fun table d => table.insert d.name.text ⟨d, scope, d.name.text == initializerName⟩)
        ((table.map (Closure.rename ρ)).rename ρ) =
      ((methods.foldl (fun table d => table.insert d.name.text ⟨d, scope, d.name.text == initializerName⟩) table).map
        (Closure.rename ρ)).rename ρ := by
    induction methods with
    | nil => exact fun _ => rfl
    | cons d methods ih =>
      intro table
      rw [List.map_cons, List.foldl_cons, List.foldl_cons, ← ih, Table.map_insert, Table.rename_insert]
      simp [Closure.rename, hinit]
  exact hfold Table.empty

/-- The class gets the new name, and its methods theirs. -/
theorem declareClass_echoes (name : Bytes) (parent : Option ClassId) (methods : List FunctionDecl) :
    Echoes ρ run id m (declareClass name parent methods)
      (declareClass (ρ.apply name) parent (methods.map (FunctionDecl.rename ρ))) := by
  have hrest : ∀ scope m, Echoes ρ run id m (newClass ⟨name, parent, methodTable scope methods⟩ >>= define name)
      (newClass ⟨ρ.apply name, parent, methodTable scope (methods.map (FunctionDecl.rename ρ))⟩ >>=
        define (ρ.apply name)) := by
    intro scope m
    rw [methodTable_rename]
    exact (newClass_echoes ⟨name, parent, methodTable scope methods⟩).bind fun value _ _ => define_echoes name value
  cases parent with
  | none =>
    rw [declareClass_base, declareClass_base]
    refine .get fun m' hm => ?_
    rw [hm.scope]
    exact hrest m.scope m
  | some id =>
    rw [declareClass_derived, declareClass_derived]
    refine .get fun m' hm => ?_
    rw [hm.scope]
    exact (newBinding_echoes m.scope ρ.apply_super _).bind fun scope _ _ => hrest scope _

end Eval

/-! ## Evaluation -/

open Eval

structure KeepsStep (ρ : Renaming) (run : Evaluation) (n : Nat) : Prop where
  expr : ∀ {e m}, Visits run ⟨n, .expr e, m⟩ → Echoes ρ run id m (evalExpr n e) (evalExpr n (e.rename ρ))
  exprs : ∀ {es m}, Visits run ⟨n, .exprs es, m⟩ →
    Echoes ρ run id m (evalExprs n es) (evalExprs n (es.map (Expr.rename ρ)))
  call : ∀ {callee args m}, Visits run ⟨n, .call callee args, m⟩ →
    Echoes ρ run id m (callValue n callee args) (callValue n callee args)
  closure : ∀ {c args m}, Visits run ⟨n, .closure c args, m⟩ →
    Echoes ρ run id m (callClosure n c args) (callClosure n (c.rename ρ) args)
  stmt : ∀ {s m}, Visits run ⟨n, .stmt s, m⟩ → Echoes ρ run id m (execStmt n s) (execStmt n (s.rename ρ))
  stmts : ∀ {ss m}, Visits run ⟨n, .stmts ss, m⟩ →
    Echoes ρ run id m (execStmts n ss) (execStmts n (ss.map (Stmt.rename ρ)))
  loop : ∀ {c b m}, Visits run ⟨n, .loop c b, m⟩ →
    Echoes ρ run id m (execLoop n c b) (execLoop n (c.rename ρ) (b.rename ρ))

section

variable {ρ : Renaming} {run : Evaluation} {n : Nat} {m : Machine}

theorem evalExpr_echoes (ih : KeepsStep ρ run n) {e : Expr} (hv : Visits run ⟨n + 1, .expr e, m⟩) :
    Echoes ρ run id m (evalExpr (n + 1) e) (evalExpr (n + 1) (e.rename ρ)) := by
  cases e with
  | literal v => exact .pure rfl
  | var name => exact lookup_echoes name
  | assign name e =>
    exact (ih.expr (hv.part .assigned)).bind fun value _ _ => (assign_echoes name value).bind fun _ _ _ => .pure rfl
  | unary op line e => exact (ih.expr (hv.part .operand)).bind fun value _ _ => applyUnary_echoes op line value
  | binary op line left right =>
    refine (ih.expr (hv.part .left)).bind fun a m₁ hleft => ?_
    exact (ih.expr (hv.part (.right hleft))).bind fun b _ _ => applyBinary_echoes op line a b
  | logical op left right =>
    refine (ih.expr (hv.part .decider)).bind fun value m₁ hleft => ?_
    show Echoes ρ run id m₁ (if decides op value = true then _ else _) (if decides op value = true then _ else _)
    cases hd : decides op value with
    | true => exact .pure rfl
    | false => exact ih.expr (hv.part (.undecided hleft hd))
  | call f args line =>
    refine (ih.expr (hv.part .callee)).bind fun callee m₁ hf => ?_
    show Echoes ρ run id m₁ _ (evalExprs n (Expr.renameAll ρ args) >>= _)
    rw [Expr.renameAll_eq]
    refine (ih.exprs (hv.part (.arguments hf))).bind fun values m₂ hargs => ?_
    refine (checkCall_echoes callee values.length line).bind fun _ m₃ hcheck => ?_
    exact (ih.call (hv.part (.invocation hf hargs hcheck))).deeper
  | get o name =>
    refine (ih.expr (hv.part .owner)).bind fun value _ _ => ?_
    exact (expectObject_echoes name.line rfl value).bind fun object _ _ => getProperty_echoes object name
  | set o name e =>
    refine (ih.expr (hv.part .target)).bind fun value m₁ ho => ?_
    refine (expectObject_echoes name.line rfl value).bind fun object m₂ hobject => ?_
    -- the target is an object, and finding that out changes nothing
    cases value with
    | object object' =>
      obtain ⟨ho', rfl⟩ := Prod.mk.inj hobject
      refine (ih.expr (hv.part (.fieldValue ho))).bind fun value' _ _ => ?_
      exact (setField_echoes object name.text value').bind fun _ _ _ => .pure rfl
    | _ => exact absurd (congrArg Prod.fst hobject) nofun
  | this line => exact lookup_word_echoes ρ.apply_this line
  | super line method => exact superMethod_echoes line method
  | group e => exact ih.expr (hv.part .grouped)

theorem evalExprs_echoes (ih : KeepsStep ρ run n) {es : List Expr} (hv : Visits run ⟨n + 1, .exprs es, m⟩) :
    Echoes ρ run id m (evalExprs (n + 1) es) (evalExprs (n + 1) (es.map (Expr.rename ρ))) := by
  cases es with
  | nil => exact .pure rfl
  | cons e es =>
    refine (ih.expr (hv.part .first)).bind fun _ m₁ he => ?_
    exact (ih.exprs (hv.part (.others he))).bind fun _ _ _ => .pure rfl

theorem callValue_echoes (ih : KeepsStep ρ run n) {callee : Value} {args : List Value}
    (hv : Visits run ⟨n + 1, .call callee args, m⟩) :
    Echoes ρ run id m (callValue (n + 1) callee args) (callValue (n + 1) callee args) := by
  cases callee with
  | function id' =>
    refine .get fun m' hm => ?_
    simp only [hm.heap, Heap.functions_rename]
    cases hc : m.heap.functions[id']? with
    | some c => exact ih.closure (hv.part (.function hc))
    | none => exact .pure rfl
  | clock => exact readClock_echoes
  | classRef id' =>
    refine (newObject_echoes id').bind fun object m₁ hobject => .get fun m' hm => ?_
    simp only [hm.heap, Heap.initializer_rename]
    cases hmethod : m₁.heap.method? id' initializerName with
    | some method =>
      refine (bindReceiver_echoes method object).bind fun c m₂ hbind => ?_
      exact (ih.closure (hv.part (.initializer hobject hmethod hbind))).bind fun _ _ _ => .pure rfl
    | none => exact .pure rfl
  | _ => exact .pure rfl

/-- Parameters are bound under their new names. -/
theorem callClosure_echoes (ih : KeepsStep ρ run n) {c : Closure} {args : List Value}
    (hv : Visits run ⟨n + 1, .closure c args, m⟩) :
    Echoes ρ run id m (callClosure (n + 1) c args) (callClosure (n + 1) (c.rename ρ) args) := by
  unfold callClosure
  dsimp only [Closure.rename]
  rw [FunctionDecl.rename_parameters, FunctionDecl.rename_body]
  have hbindings := Scopes.bindAll_rename ρ Table.empty c.declaration.parameters args
  rw [Table.rename_empty] at hbindings
  rw [hbindings]
  refine (newScope_echoes c.scope _).bind fun scope m₁ hscope => ?_
  exact ((ih.stmts (hv.part (.functionBody hscope))).inScope scope).bind fun completion _ _ =>
    callResult_echoes c completion

theorem execStmt_echoes (ih : KeepsStep ρ run n) {s : Stmt} (hv : Visits run ⟨n + 1, .stmt s, m⟩) :
    Echoes ρ run id m (execStmt (n + 1) s) (execStmt (n + 1) (s.rename ρ)) := by
  cases s with
  | expression e => exact (ih.expr (hv.part .discarded)).bind fun _ _ _ => .pure rfl
  | print e =>
    refine (ih.expr (hv.part .printed)).bind fun value m₁ he => ?_
    exact (print_echoes ⟨n, e, m, m₁, hv, he, rfl, rfl⟩).bind fun _ _ _ => .pure rfl
  | var name init =>
    have hdefine : ∀ value m, Echoes ρ run id m (define name.text value >>= fun _ => pure Completion.normal)
        (define (ρ.apply name.text) value >>= fun _ => pure Completion.normal) :=
      fun value _ => (define_echoes name.text value).bind fun _ _ _ => .pure rfl
    cases init with
    | none => exact hdefine .nil m
    | some e => exact (ih.expr (hv.part .initial)).bind fun value m₁ _ => hdefine value m₁
  | block body =>
    simp only [Stmt.rename, Stmt.renameAll_eq]
    refine .get fun m' hm => ?_
    rw [hm.scope]
    refine (newScope_echoes m.scope Table.empty).bind fun scope m₁ hscope => ?_
    exact (ih.stmts (hv.part (.block hscope))).inScope scope
  | ifElse c t e =>
    rw [Stmt.rename_ifElse]
    refine (ih.expr (hv.part .condition)).bind fun value m₁ hc => ?_
    show Echoes ρ run id m₁ (if value.truthy = true then _ else _) (if value.truthy = true then _ else _)
    cases ht : value.truthy with
    | true => exact ih.stmt (hv.part (.thenBranch hc ht))
    | false =>
      cases e with
      | none => exact .pure rfl
      | some e => exact ih.stmt (hv.part (.elseBranch hc ht))
  | loop c b => exact ih.loop (hv.part .loop)
  | function d =>
    refine .get fun m' hm => ?_
    rw [hm.scope]
    refine (newFunction_echoes ⟨d, m.scope, false⟩).bind fun value m₁ _ => ?_
    rw [FunctionDecl.rename_name]
    exact (define_echoes d.name.text value).bind fun _ _ _ => .pure rfl
  | ret v =>
    cases v with
    | none => exact .pure rfl
    | some e => exact (ih.expr (hv.part .returned)).bind fun _ _ _ => .pure rfl
  | classDecl name parent methods =>
    simp only [Stmt.rename, FunctionDecl.renameAll_eq]
    refine (superclass_echoes parent).bind fun id' _ _ => ?_
    exact (declareClass_echoes name.text id' methods).bind fun _ _ _ => .pure rfl

theorem execStmts_echoes (ih : KeepsStep ρ run n) {ss : List Stmt} (hv : Visits run ⟨n + 1, .stmts ss, m⟩) :
    Echoes ρ run id m (execStmts (n + 1) ss) (execStmts (n + 1) (ss.map (Stmt.rename ρ))) := by
  cases ss with
  | nil => exact .pure rfl
  | cons s ss =>
    refine (ih.stmt (hv.part .statement)).bind fun completion m₁ hs => ?_
    cases completion with
    | normal => exact ih.stmts (hv.part (.statements hs))
    | returned value => exact .pure rfl

theorem execLoop_echoes (ih : KeepsStep ρ run n) {c : Expr} {b : Stmt} (hv : Visits run ⟨n + 1, .loop c b, m⟩) :
    Echoes ρ run id m (execLoop (n + 1) c b) (execLoop (n + 1) (c.rename ρ) (b.rename ρ)) := by
  refine (ih.expr (hv.part .test)).bind fun value m₁ hc => ?_
  show Echoes ρ run id m₁ (if value.truthy = true then _ else _) (if value.truthy = true then _ else _)
  cases ht : value.truthy with
  | false => exact .pure rfl
  | true =>
    refine (ih.stmt (hv.part (.turn hc ht))).bind fun completion m₂ hb => ?_
    cases completion with
    | normal => exact ih.loop (hv.part (.again hc ht hb))
    | returned value => exact .pure rfl

/-- However deep they nest, the parts of a run keep in step. -/
theorem keepsStep (ρ : Renaming) (run : Evaluation) (n : Nat) : KeepsStep ρ run n := by
  induction n with
  | zero =>
    exact ⟨fun _ => .exhausted, fun _ => .exhausted, fun _ => .exhausted, fun _ => .exhausted, fun _ => .exhausted,
      fun _ => .exhausted, fun _ => .exhausted⟩
  | succ n ih =>
    exact ⟨evalExpr_echoes ih, evalExprs_echoes ih, callValue_echoes ih, callClosure_echoes ih, execStmt_echoes ih,
      execStmts_echoes ih, execLoop_echoes ih⟩

/-- A renamed program does what the program does, under the new names. -/
theorem execProgram_echoes {fuel : Nat} {program : List Stmt} (hv : Visits run ⟨fuel, .program program, m⟩) :
    Echoes ρ run id m (execProgram fuel program) (execProgram fuel (program.map (Stmt.rename ρ))) := by
  induction program generalizing m with
  | nil => exact .pure rfl
  | cons s rest ih =>
    exact ((keepsStep ρ run fuel).stmt (hv.part .topLevel)).bind fun _ _ hs => ih (hv.part (.rest hs))

end

end Lox
