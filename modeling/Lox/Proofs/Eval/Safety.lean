/-
  Lox.Proofs.Eval.Safety — valid programs find their receivers. A heap is sound if every
  function in it, and every method once it has a receiver, stands in a scope that knows the
  receiver and the superclass its body may speak of. Each step of the evaluator keeps the
  heap sound (`evaluates`), so no such word is ever found undefined.
-/

import Lox.Proofs.Eval.Run
import Lox.Proofs.Eval.Scopes
import Lox.Proofs.Plain
import Lox.Proofs.Valid

namespace Lox

/-! ## Sound heaps -/

/-- The scope knows what code in such a class may speak of. -/
structure Scopes.Serves (s : Scopes) (id : Nat) (enclosing : EnclosingClass) : Prop where
  exists_scope : id < s.all.size
  receiver : enclosing ≠ .outside → ∃ object, s.get? id thisName = some (.object object)
  superclass : enclosing = .derived → ∃ parent, s.get? id superName = some (.classRef parent)

/-- What a scope knows of the receiver and the superclass stays known. -/
theorem Scopes.Serves.mono {s s' : Scopes} {id : Nat} {enclosing : EnclosingClass} (h : s.Serves id enclosing)
    (hs : s.Ordered) (he : s.Extends s') : s'.Serves id enclosing := by
  refine ⟨Nat.lt_of_lt_of_le h.exists_scope he.size_le, fun hc => ?_, fun hc => ?_⟩
  · obtain ⟨object, ho⟩ := h.receiver hc
    exact ⟨object, he.get? hs (.inl rfl) ho⟩
  · obtain ⟨parent, hp⟩ := h.superclass hc
    exact ⟨parent, he.get? hs (.inr rfl) hp⟩

/-- A scope inside of another serves the same code if it binds no reserved word. -/
theorem Scopes.Serves.push {s : Scopes} {id : Nat} {enclosing : EnclosingClass} (h : s.Serves id enclosing)
    (hs : s.Ordered) {bindings : Table Value} (hb : ∀ name, Reserved name → bindings.get? name = none) :
    (s.push ⟨some id, bindings⟩).Serves s.next enclosing := by
  refine ⟨by rw [size_push]; exact Nat.lt_succ_self _, fun hc => ?_, fun hc => ?_⟩
  · obtain ⟨object, ho⟩ := h.receiver hc
    exact ⟨object, get?_push_outer hs h.exists_scope bindings (hb _ (.inl rfl)) (.inl rfl) ho⟩
  · obtain ⟨parent, hp⟩ := h.superclass hc
    exact ⟨parent, get?_push_outer hs h.exists_scope bindings (hb _ (.inr rfl)) (.inr rfl) hp⟩

def Closure.Sound (s : Scopes) (c : Closure) : Prop :=
  ∃ enclosing, s.Serves c.scope enclosing ∧ c.declaration.Valid enclosing ∧ c.declaration.Plain

/-- A method: its scope serves its body but for the receiver, which is yet to come. -/
def Closure.SoundMethod (s : Scopes) (c : Closure) : Prop :=
  ∃ enclosing, c.scope < s.all.size ∧
    (enclosing = .derived → ∃ parent, s.get? c.scope superName = some (.classRef parent)) ∧
    c.declaration.Valid enclosing ∧ c.declaration.Plain

theorem Closure.Sound.mono {s s' : Scopes} {c : Closure} (h : c.Sound s) (hs : s.Ordered) (he : s.Extends s') :
    c.Sound s' := by
  obtain ⟨enclosing, hserves, hv, hp⟩ := h
  exact ⟨enclosing, hserves.mono hs he, hv, hp⟩

theorem Closure.SoundMethod.mono {s s' : Scopes} {c : Closure} (h : c.SoundMethod s) (hs : s.Ordered)
    (he : s.Extends s') : c.SoundMethod s' := by
  obtain ⟨enclosing, hlt, hsuper, hv, hp⟩ := h
  refine ⟨enclosing, Nat.lt_of_lt_of_le hlt he.size_le, fun hc => ?_, hv, hp⟩
  obtain ⟨parent, hget⟩ := hsuper hc
  exact ⟨parent, he.get? hs (.inr rfl) hget⟩

structure Heap.Sound (h : Heap) : Prop where
  ordered : h.scopes.Ordered
  functions : ∀ (id : Nat) (c : Closure), h.functions[id]? = some c → c.Sound h.scopes
  methods : ∀ (id : Nat) (info : ClassInfo) (name : Bytes) (c : Closure), h.classes[id]? = some info →
    info.methods.get? name = some c → c.SoundMethod h.scopes

/-- Scopes may be added and changed as long as the reserved words stay. -/
theorem Heap.Sound.withScopes {h : Heap} (hs : h.Sound) {scopes : Scopes} (ho : scopes.Ordered)
    (he : h.scopes.Extends scopes) : Heap.Sound { h with scopes } where
  ordered := ho
  functions id c hc := (hs.functions id c hc).mono hs.ordered he
  methods id info name c hi hc := (hs.methods id info name c hi hc).mono hs.ordered he

/-- What is neither scope nor function nor class does not matter. -/
theorem Heap.Sound.withObjects {h : Heap} (hs : h.Sound) (objects : Array Object) : Heap.Sound { h with objects } :=
  ⟨hs.ordered, hs.functions, hs.methods⟩

theorem Heap.Sound.methodWithin? {h : Heap} (hs : h.Sound) {name : Bytes} {bound id : Nat} {c : Closure}
    (hc : h.methodWithin? name bound id = some c) : c.SoundMethod h.scopes := by
  induction bound generalizing id with
  | zero => cases hc
  | succ bound ih =>
    unfold Heap.methodWithin? at hc
    split at hc
    · cases hc
    · rename_i info hinfo
      split at hc
      · rename_i method hmethod
        cases hc
        exact hs.methods id info name c hinfo hmethod
      · split at hc
        · cases hc
        · exact ih hc

/-- Methods are sound wherever they are found. -/
theorem Heap.Sound.method? {h : Heap} (hs : h.Sound) {id : Nat} {name : Bytes} {c : Closure}
    (hc : h.method? id name = some c) : c.SoundMethod h.scopes :=
  hs.methodWithin? hc

/-! ## Fine steps -/

/-- The reserved words are never undefined. -/
def Halt.Harmless : Halt → Prop
  | .fault e => ∀ name, Reserved name → e.fault ≠ .undefinedVariable name
  | .exhausted => True

structure Machine.Later (m m' : Machine) : Prop where
  sound : m'.heap.Sound
  extend : m.heap.scopes.Extends m'.heap.scopes
  scope : m'.scope = m.scope

theorem Machine.Later.refl {m : Machine} (h : m.heap.Sound) : m.Later m := ⟨h, .refl _, rfl⟩

theorem Machine.Later.trans {m m' m'' : Machine} (h : m.Later m') (h' : m'.Later m'') : m.Later m'' :=
  ⟨h'.sound, h.extend.trans h'.extend, h'.scope.trans h.scope⟩

namespace Eval

variable {α β : Type}

/-- The step leaves a later machine. It ends with such a value, or without harm. -/
inductive Fine (x : Eval α) (m : Machine) (Q : α → Machine → Prop) : Prop
  | ok {a : α} {m' : Machine} : x m = (.ok a, m') → m.Later m' → Q a m' → Fine x m Q
  | halted {halt : Halt} {m' : Machine} : x m = (.error halt, m') → m.Later m' → halt.Harmless → Fine x m Q

variable {m : Machine} {x : Eval α} {f : α → Eval β} {Q : α → Machine → Prop} {R : β → Machine → Prop}

theorem Fine.pure {a : α} (h : m.heap.Sound) (hq : Q a m) : Fine (pure a) m Q := .ok rfl (.refl h) hq

theorem Fine.exhausted (h : m.heap.Sound) : Fine (exhausted : Eval α) m Q := .halted rfl (.refl h) trivial

theorem Fine.fail (h : m.heap.Sound) {line : Nat} {fault : RuntimeFault}
    (hf : ∀ name, Reserved name → fault ≠ .undefinedVariable name) : Fine (fail line fault : Eval α) m Q :=
  .halted rfl (.refl h) hf

/-- Steps in sequence, where the second may use how the first ended. -/
theorem Fine.then (hx : Fine x m Q)
    (hf : ∀ a m', x m = (.ok a, m') → m.Later m' → Q a m' → Fine (f a) m' R) : Fine (x >>= f) m R := by
  rcases hx with ⟨hx, hlater, hq⟩ | ⟨hx, hlater, hh⟩
  · rcases hf _ _ hx hlater hq with ⟨hfx, hlater', hr⟩ | ⟨hfx, hlater', hh⟩
    · exact .ok ((bind_ok hx).trans hfx) (hlater.trans hlater') hr
    · exact .halted ((bind_ok hx).trans hfx) (hlater.trans hlater') hh
  · exact .halted (bind_error hx) hlater hh

theorem Fine.bind (hx : Fine x m Q) (hf : ∀ a m', m.Later m' → Q a m' → Fine (f a) m' R) : Fine (x >>= f) m R :=
  hx.then fun a m' _ => hf a m'

theorem Fine.later {a : α} {m' : Machine} (h : Fine x m Q) (hx : x m = (.ok a, m')) : m.Later m' ∧ Q a m' := by
  rcases h with ⟨hx', hlater, hq⟩ | ⟨hx', -, -⟩
  · cases hx.symm.trans hx'
    exact ⟨hlater, hq⟩
  · cases hx.symm.trans hx'

theorem Fine.imp {R : α → Machine → Prop} (h : Fine x m Q) (hq : ∀ a m', m.Later m' → Q a m' → R a m') : Fine x m R := by
  rcases h with ⟨hx, hlater, h⟩ | ⟨hx, hlater, hh⟩
  · exact .ok hx hlater (hq _ _ hlater h)
  · exact .halted hx hlater hh

/-- Reading the machine changes nothing. -/
theorem Fine.get {f : Machine → Eval β} (h : Fine (f m) m R) : Fine (MonadState.get >>= f) m R := by
  rcases h with ⟨hx, hlater, h⟩ | ⟨hx, hlater, hh⟩
  · exact .ok ((get_bind f m).trans hx) hlater h
  · exact .halted ((get_bind f m).trans hx) hlater hh

end Eval

structure Machine.Stands (m : Machine) (enclosing : EnclosingClass) : Prop where
  sound : m.heap.Sound
  serves : m.heap.scopes.Serves m.scope enclosing

theorem Machine.Stands.later {m m' : Machine} {enclosing : EnclosingClass} (h : m.Stands enclosing) (hl : m.Later m') :
    m'.Stands enclosing := by
  refine ⟨hl.sound, ?_⟩
  rw [hl.scope]
  exact h.serves.mono h.sound.ordered hl.extend

namespace Eval

variable {α : Type} {m : Machine} {enclosing : EnclosingClass}

/-! ## Names -/

/-- A name that a program can write is not one of the reserved words. -/
theorem harmless_of_plain {name : Name} (hn : name.Plain) (other : Bytes) (ho : Reserved other) :
    RuntimeFault.undefinedVariable name.text ≠ .undefinedVariable other := by
  intro heq
  cases heq
  exact hn ho

theorem lookup_fine (h : m.heap.Sound) {name : Name} (hn : name.Plain) : Fine (lookup name) m fun _ _ => True := by
  refine Fine.get ?_
  split
  · exact .pure h trivial
  · exact .fail h (harmless_of_plain hn)

theorem lookup_run {name : Name} {value : Value} (h : m.heap.scopes.get? m.scope name.text = some value) :
    lookup name m = (.ok value, m) := by
  unfold lookup
  rw [get_bind, h]
  rfl

theorem define_later (h : m.heap.Sound) {name : Bytes} (hn : ¬ Reserved name) (value : Value) (holder : Nat) :
    m.Later { m with heap := { m.heap with scopes := m.heap.scopes.define holder name value } } := by
  have he := Scopes.define_extends m.heap.scopes holder value hn
  exact ⟨h.withScopes (Scopes.define_ordered h.ordered holder name value) he, he, rfl⟩

theorem define_fine (h : m.heap.Sound) {name : Bytes} (hn : ¬ Reserved name) (value : Value) :
    Fine (define name value) m fun _ _ => True :=
  .ok rfl (define_later h hn value m.scope) trivial

theorem assign_fine (h : m.heap.Sound) {name : Name} (hn : name.Plain) (value : Value) :
    Fine (assign name value) m fun _ _ => True := by
  cases hholder : m.heap.scopes.holder? m.scope name.text with
  | some holder => exact .ok (assign_bound hholder) (define_later h hn value holder) trivial
  | none => exact .halted (assign_unbound hholder) (.refl h) (harmless_of_plain hn)

/-! ## New things -/

theorem newScope_fine (h : m.heap.Sound) {outer : Nat} (ho : outer < m.heap.scopes.all.size) (bindings : Table Value) :
    Fine (newScope outer bindings) m fun id m' =>
      id = m.heap.scopes.next ∧ m'.heap.scopes = m.heap.scopes.push ⟨some outer, bindings⟩ := by
  have he := Scopes.push_extends m.heap.scopes ⟨some outer, bindings⟩
  exact .ok rfl ⟨h.withScopes (Scopes.push_ordered h.ordered bindings ho) he, he, rfl⟩ ⟨rfl, rfl⟩

theorem newFunction_fine (h : m.heap.Sound) {c : Closure} (hc : c.Sound m.heap.scopes) :
    Fine (newFunction c) m fun _ _ => True := by
  refine .ok rfl ⟨⟨h.ordered, fun id c' hc' => ?_, h.methods⟩, .refl _, rfl⟩ trivial
  rcases push_cases hc' with ⟨-, rfl⟩ | hold
  · exact hc
  · exact h.functions id c' hold

theorem newClass_fine (h : m.heap.Sound) {info : ClassInfo}
    (hi : ∀ name c, info.methods.get? name = some c → c.SoundMethod m.heap.scopes) :
    Fine (newClass info) m fun _ _ => True := by
  refine .ok rfl ⟨⟨h.ordered, h.functions, fun id info' name c hinfo hc => ?_⟩, .refl _, rfl⟩ trivial
  rcases push_cases hinfo with ⟨-, rfl⟩ | hold
  · exact hi name c hc
  · exact h.methods id info' name c hold hc

theorem newObject_fine (h : m.heap.Sound) (classId : ClassId) : Fine (newObject classId) m fun _ _ => True :=
  .ok rfl ⟨h.withObjects _, .refl _, rfl⟩ trivial

theorem setField_fine (h : m.heap.Sound) (id : ObjectId) (name : Bytes) (value : Value) :
    Fine (setField id name value) m fun _ _ => True :=
  .ok rfl ⟨h.withObjects _, .refl _, rfl⟩ trivial

/-- A method with a receiver stands in a scope that serves its whole body. -/
theorem bindReceiver_fine (h : m.heap.Sound) {method : Closure} (hm : method.SoundMethod m.heap.scopes)
    (receiver : ObjectId) : Fine (bindReceiver method receiver) m fun c m' => c.Sound m'.heap.scopes := by
  obtain ⟨enclosing, hlt, hsuper, hv, hp⟩ := hm
  refine (newScope_fine h hlt _).bind fun id m' hlater hid => .pure hlater.sound ⟨enclosing, ?_, hv, hp⟩
  obtain ⟨rfl, hscopes⟩ := hid
  rw [hscopes]
  refine ⟨by rw [Scopes.size_push]; exact Nat.lt_succ_self _, fun _ => ⟨receiver, ?_⟩, fun hc => ?_⟩
  · exact Scopes.get?_push_own _ _ (Table.get?_insert_self _ _ _)
  · obtain ⟨parent, hget⟩ := hsuper hc
    have hnone : (Table.empty.insert thisName (Value.object receiver)).get? superName = none := by
      rw [Table.get?_insert, if_neg thisName_ne_superName.symm]
      rfl
    exact ⟨parent, Scopes.get?_push_outer h.ordered hlt _ hnone (.inr rfl) hget⟩

theorem bindMethod_fine (h : m.heap.Sound) {method : Closure} (hm : method.SoundMethod m.heap.scopes)
    (receiver : ObjectId) : Fine (bindMethod method receiver) m fun _ _ => True :=
  (bindReceiver_fine h hm receiver).bind fun _ _ hlater hc => newFunction_fine hlater.sound hc

/-! ## Scope and depth -/

theorem inScope_fine {x : Eval α} {scope : ScopeId} {P : α → Prop} (h : Fine x { m with scope } fun a _ => P a) :
    Fine (inScope scope x) m fun a _ => P a := by
  rcases h with ⟨hx, hlater, hp⟩ | ⟨hx, hlater, hh⟩
  · exact .ok (inScope_run hx) ⟨hlater.sound, hlater.extend, rfl⟩ hp
  · exact .halted (inScope_run hx) ⟨hlater.sound, hlater.extend, rfl⟩ hh

theorem deeper_fine {x : Eval α} {P : α → Prop} (h : Fine x { m with depth := m.depth + 1 } fun a _ => P a) :
    Fine (deeper x) m fun a _ => P a := by
  rcases h with ⟨hx, hlater, hp⟩ | ⟨hx, hlater, hh⟩
  · exact .ok (deeper_run hx) ⟨hlater.sound, hlater.extend, hlater.scope⟩ hp
  · exact .halted (deeper_run hx) ⟨hlater.sound, hlater.extend, hlater.scope⟩ hh

/-! ## Operators and objects -/

theorem applyUnary_fine (h : m.heap.Sound) (op : UnaryOp) (line : Nat) (v : Value) :
    Fine (applyUnary op line v) m fun _ _ => True := by
  unfold applyUnary
  split
  · exact .pure h trivial
  · exact .pure h trivial
  · exact .fail h fun _ _ => nofun

theorem numbers_fine (h : m.heap.Sound) (line : Nat) (f : Float → Float → Value) (l r : Value) :
    Fine (numbers line f l r) m fun _ _ => True := by
  unfold numbers
  split
  · exact .pure h trivial
  · exact .fail h fun _ _ => nofun

theorem applyBinary_fine (h : m.heap.Sound) (op : BinaryOp) (line : Nat) (l r : Value) :
    Fine (applyBinary op line l r) m fun _ _ => True := by
  cases op with
  | equal => exact .pure h trivial
  | notEqual => exact .pure h trivial
  | add =>
    simp only [applyBinary]
    split
    · exact .pure h trivial
    · exact .pure h trivial
    · exact .fail h fun _ _ => nofun
  | _ => exact numbers_fine h line _ l r

theorem expectObject_fine (h : m.heap.Sound) (line : Nat) {fault : RuntimeFault}
    (hf : ∀ name, Reserved name → fault ≠ .undefinedVariable name) (v : Value) :
    Fine (expectObject line fault v) m fun _ _ => True := by
  unfold expectObject
  split
  · exact .pure h trivial
  · exact .fail h hf

theorem getProperty_fine (h : m.heap.Sound) (id : ObjectId) (name : Name) :
    Fine (getProperty id name) m fun _ _ => True := by
  refine Fine.get ?_
  simp only
  split
  · exact .fail h fun _ _ => nofun
  · split
    · exact .pure h trivial
    · split
      · rename_i method hmethod
        exact bindMethod_fine h (h.method? hmethod) id
      · exact .fail h fun _ _ => nofun

/-- Where a superclass is known, so is a receiver, and what is left is to find the method. -/
theorem superMethod_run (h : m.Stands .derived) (line : Nat) (method : Name) :
    ∃ parent receiver, superMethod line method m = (match m.heap.method? parent method.text with
      | some found => bindMethod found receiver
      | none => fail method.line (.undefinedProperty method.text)) m := by
  obtain ⟨parent, hparent⟩ := h.serves.superclass rfl
  obtain ⟨receiver, hreceiver⟩ := h.serves.receiver nofun
  refine ⟨parent, receiver, ?_⟩
  unfold superMethod
  rw [bind_ok (lookup_run hparent)]
  show (lookup ⟨thisName, line⟩ >>= _) m = _
  rw [bind_ok (lookup_run hreceiver)]
  rfl

/-- In a subclass the superclass and the receiver are both known. -/
theorem superMethod_fine (h : m.Stands .derived) (line : Nat) (method : Name) :
    Fine (superMethod line method) m fun _ _ => True := by
  obtain ⟨parent, receiver, hrun⟩ := superMethod_run h line method
  have hfine : Fine (match m.heap.method? parent method.text with
      | some found => bindMethod found receiver
      | none => fail method.line (.undefinedProperty method.text)) m fun _ _ => True := by
    split
    · rename_i found hfound
      exact bindMethod_fine h.sound (h.sound.method? hfound) receiver
    · exact .fail h.sound fun _ _ => nofun
  rcases hfine with ⟨hx, hlater, hq⟩ | ⟨hx, hlater, hh⟩
  · exact .ok (hrun.trans hx) hlater hq
  · exact .halted (hrun.trans hx) hlater hh

theorem checkCall_fine (h : m.heap.Sound) (callee : Value) (count line : Nat) :
    Fine (checkCall callee count line) m fun _ _ => True := by
  refine Fine.get ?_
  split
  · exact .fail h fun _ _ => nofun
  · split
    · exact .fail h fun _ _ => nofun
    · split
      · exact .fail h fun _ _ => nofun
      · exact .pure h trivial

theorem callResult_fine (h : m.heap.Sound) (c : Closure) (completion : Completion) :
    Fine (callResult c completion) m fun _ _ => True := by
  unfold callResult
  split
  · exact Fine.get (.pure h trivial)
  · cases completion with
    | normal => exact .pure h trivial
    | returned value => exact .pure h trivial

/-! ## Classes -/

theorem superclass_fine (h : m.heap.Sound) {parent : Option Name} (hp : ∀ p ∈ parent, p.Plain) :
    Fine (superclass parent) m fun id _ => id.isSome = parent.isSome := by
  cases parent with
  | none => exact .pure h rfl
  | some name =>
    refine (lookup_fine h (hp name rfl)).bind fun value m' hlater _ => ?_
    split
    · exact .pure hlater.sound rfl
    · exact .fail hlater.sound fun _ _ => nofun

/-- Every method in the table was declared in the class body. -/
theorem methodTable_all {P : Closure → Prop} {scope : ScopeId} {methods : List FunctionDecl}
    (h : ∀ d ∈ methods, P ⟨d, scope, d.name.text == initializerName⟩) {name : Bytes} {c : Closure}
    (hc : (methodTable scope methods).get? name = some c) : P c := by
  have hfold : ∀ (table : Table Closure), (∀ name c, table.get? name = some c → P c) → ∀ name c,
      (methods.foldl (fun table d => table.insert d.name.text ⟨d, scope, d.name.text == initializerName⟩) table).get? name =
        some c → P c := by
    clear hc
    induction methods with
    | nil => exact fun table ht => ht
    | cons d methods ih =>
      intro table ht
      refine ih (fun d' hd' => h d' (List.mem_cons_of_mem d hd')) _ fun other c' hc' => ?_
      rw [Table.get?_insert] at hc'
      split at hc'
      · cases hc'
        exact h d List.mem_cons_self
      · exact ht other c' hc'
  exact hfold Table.empty (fun _ _ h => by cases h) name c hc

/-- Methods stand in a class that knows its superclass if and only if there is a clause. -/
theorem declareClass_fine (h : m.Stands enclosing) {name : Bytes} (hn : ¬ Reserved name) {parentId : Option ClassId}
    {parent : Option Name} (hid : parentId.isSome = parent.isSome) {methods : List FunctionDecl}
    (hv : ∀ d ∈ methods, d.Valid (.ofParent parent)) (hp : ∀ d ∈ methods, d.Plain) :
    Fine (declareClass name parentId methods) m fun _ _ => True := by
  -- What is left once the scope of the methods is made, and knows what they may ask of it.
  have hrest : ∀ (scope : Nat) (m' : Machine), m.Later m' → scope < m'.heap.scopes.all.size →
      (EnclosingClass.ofParent parent = .derived → ∃ p, m'.heap.scopes.get? scope superName = some (.classRef p)) →
      Fine (newClass ⟨name, parentId, methodTable scope methods⟩ >>= define name) m' fun _ _ => True := by
    intro scope m' hlater hlt hsuper
    refine (newClass_fine hlater.sound fun other c hc => ?_).bind fun value m'' hlater' _ =>
      define_fine hlater'.sound hn value
    exact methodTable_all (fun d hd => ⟨_, hlt, hsuper, hv d hd, hp d hd⟩) hc
  cases parentId with
  | none =>
    rw [declareClass_base]
    refine Fine.get (hrest m.scope m (.refl h.sound) h.serves.exists_scope fun hc => ?_)
    cases parent with
    | none => cases hc
    | some _ => cases hid
  | some id =>
    rw [declareClass_derived]
    refine Fine.get ((newScope_fine h.sound h.serves.exists_scope _).bind fun scope m' hlater hs => ?_)
    obtain ⟨rfl, hscopes⟩ := hs
    refine hrest _ m' hlater ?_ fun _ => ⟨id, ?_⟩
    · rw [hscopes, Scopes.size_push]
      exact Nat.lt_succ_self _
    · rw [hscopes]
      exact Scopes.get?_push_own _ _ (Table.get?_insert_self _ _ _)

end Eval

/-! ## Evaluation -/

open Eval

/-- Evaluation is fine where it may nest `n` deep. Only code in a function returns. -/
structure Evaluates (n : Nat) : Prop where
  expr : ∀ {e : Expr} {enclosing : EnclosingClass} {m : Machine}, m.Stands enclosing → e.Valid enclosing → e.Plain →
    Fine (evalExpr n e) m fun _ _ => True
  exprs : ∀ {es : List Expr} {enclosing : EnclosingClass} {m : Machine}, m.Stands enclosing →
    Expr.AllValid enclosing es → Expr.AllPlain es → Fine (evalExprs n es) m fun _ _ => True
  call : ∀ {callee : Value} {args : List Value} {m : Machine}, m.heap.Sound →
    Fine (callValue n callee args) m fun _ _ => True
  closure : ∀ {c : Closure} {args : List Value} {m : Machine}, m.heap.Sound → c.Sound m.heap.scopes →
    Fine (callClosure n c args) m fun _ _ => True
  stmt : ∀ {s : Stmt} {inFunction : Bool} {enclosing : EnclosingClass} {m : Machine}, m.Stands enclosing →
    s.Valid inFunction enclosing → s.Plain →
    Fine (execStmt n s) m fun completion _ => inFunction = false → completion = .normal
  stmts : ∀ {ss : List Stmt} {inFunction : Bool} {enclosing : EnclosingClass} {m : Machine}, m.Stands enclosing →
    Stmt.AllValid inFunction enclosing ss → Stmt.AllPlain ss →
    Fine (execStmts n ss) m fun completion _ => inFunction = false → completion = .normal
  loop : ∀ {condition : Expr} {body : Stmt} {inFunction : Bool} {enclosing : EnclosingClass} {m : Machine},
    m.Stands enclosing → condition.Valid enclosing → condition.Plain → body.Valid inFunction enclosing → body.Plain →
    Fine (execLoop n condition body) m fun completion _ => inFunction = false → completion = .normal

section

variable {n : Nat} {m : Machine} {enclosing : EnclosingClass} {inFunction : Bool}

theorem evalExpr_fine (ih : Evaluates n) {e : Expr} (h : m.Stands enclosing) (hv : e.Valid enclosing) (hp : e.Plain) :
    Fine (evalExpr (n + 1) e) m fun _ _ => True := by
  cases e with
  | literal v => exact .pure h.sound trivial
  | var name => exact lookup_fine h.sound hp
  | assign name e =>
    refine (ih.expr (e := e) h hv hp.2).bind fun value m₁ h₁ _ => ?_
    exact (assign_fine h₁.sound hp.1 value).bind fun _ m₂ h₂ _ => .pure h₂.sound trivial
  | unary op line e =>
    exact (ih.expr (e := e) h hv hp).bind fun value m₁ h₁ _ => applyUnary_fine h₁.sound op line value
  | binary op line l r =>
    refine (ih.expr h hv.1 hp.1).bind fun left m₁ h₁ _ => ?_
    exact (ih.expr (h.later h₁) hv.2 hp.2).bind fun right m₂ h₂ _ => applyBinary_fine h₂.sound op line left right
  | logical op l r =>
    refine (ih.expr h hv.1 hp.1).bind fun left m₁ h₁ _ => ?_
    split
    · exact .pure h₁.sound trivial
    · exact ih.expr (h.later h₁) hv.2 hp.2
  | call f args line =>
    refine (ih.expr h hv.1 hp.1).bind fun callee m₁ h₁ _ => ?_
    refine (ih.exprs (h.later h₁) hv.2.1 hp.2).bind fun values m₂ h₂ _ => ?_
    refine (checkCall_fine h₂.sound callee values.length line).bind fun _ m₃ h₃ _ => ?_
    exact deeper_fine (ih.call h₃.sound)
  | get o name =>
    refine (ih.expr (e := o) h hv hp).bind fun value m₁ h₁ _ => ?_
    refine (expectObject_fine h₁.sound _ (fun _ _ => by nofun) value).bind fun id m₂ h₂ _ => ?_
    exact getProperty_fine h₂.sound id name
  | set o name e =>
    refine (ih.expr h hv.1 hp.1).bind fun value m₁ h₁ _ => ?_
    refine (expectObject_fine h₁.sound _ (fun _ _ => by nofun) value).bind fun id m₂ h₂ _ => ?_
    refine (ih.expr ((h.later h₁).later h₂) hv.2 hp.2).bind fun value' m₃ h₃ _ => ?_
    exact (setField_fine h₃.sound id name.text value').bind fun _ m₄ h₄ _ => .pure h₄.sound trivial
  | this line =>
    obtain ⟨object, ho⟩ := h.serves.receiver hv
    exact .ok (lookup_run ho) (.refl h.sound) trivial
  | super line method =>
    cases hv
    exact superMethod_fine h line method
  | group e => exact ih.expr (e := e) h hv hp

theorem evalExprs_fine (ih : Evaluates n) {es : List Expr} (h : m.Stands enclosing) (hv : Expr.AllValid enclosing es)
    (hp : Expr.AllPlain es) : Fine (evalExprs (n + 1) es) m fun _ _ => True := by
  cases es with
  | nil => exact .pure h.sound trivial
  | cons e es =>
    refine (ih.expr h hv.1 hp.1).bind fun value m₁ h₁ _ => ?_
    exact (ih.exprs (h.later h₁) hv.2 hp.2).bind fun values m₂ h₂ _ => .pure h₂.sound trivial

theorem callValue_fine (ih : Evaluates n) {callee : Value} {args : List Value} (h : m.heap.Sound) :
    Fine (callValue (n + 1) callee args) m fun _ _ => True := by
  cases callee with
  | function id =>
    refine Fine.get ?_
    split
    · rename_i c hc
      exact ih.closure h (h.functions id c hc)
    · exact .pure h trivial
  | clock => exact .ok rfl ⟨h, .refl _, rfl⟩ trivial
  | classRef id =>
    refine (newObject_fine h id).bind fun object m₁ h₁ _ => Fine.get ?_
    split
    · rename_i method hmethod
      refine (bindReceiver_fine h₁.sound (h₁.sound.method? hmethod) object).bind fun c m₂ h₂ hc => ?_
      exact (ih.closure h₂.sound hc).bind fun _ m₃ h₃ _ => .pure h₃.sound trivial
    · exact .pure h₁.sound trivial
  | _ => exact .pure h trivial

/-- The parameters of a function hide neither receiver nor superclass from its body. -/
theorem body_stands (h : m.heap.Sound) {c : Closure} (hserves : m.heap.scopes.Serves c.scope enclosing)
    (hp : c.declaration.Plain) {args : List Value} {scope : ScopeId} {m' : Machine}
    (hscope : newScope c.scope (Scopes.bindAll Table.empty c.declaration.parameters args) m = (.ok scope, m')) :
    Machine.Stands { m' with scope } enclosing := by
  obtain ⟨⟨name, params, body⟩, outer, isInitializer⟩ := c
  obtain ⟨hlater, rfl, hscopes⟩ := (newScope_fine h hserves.exists_scope _).later hscope
  refine ⟨hlater.sound, ?_⟩
  show m'.heap.scopes.Serves m.heap.scopes.next enclosing
  rw [hscopes]
  exact hserves.push h.ordered fun name hn => Scopes.get?_bindAll hn params args _ hp.2.1

/-- Nor does an empty scope. -/
theorem block_stands (h : m.Stands enclosing) {scope : ScopeId} {m' : Machine}
    (hscope : newScope m.scope Table.empty m = (.ok scope, m')) : Machine.Stands { m' with scope } enclosing := by
  obtain ⟨hlater, rfl, hscopes⟩ := (newScope_fine h.sound h.serves.exists_scope _).later hscope
  refine ⟨hlater.sound, ?_⟩
  show m'.heap.scopes.Serves m.heap.scopes.next enclosing
  rw [hscopes]
  exact h.serves.push h.sound.ordered fun _ _ => rfl

theorem callClosure_fine (ih : Evaluates n) {c : Closure} {args : List Value} (h : m.heap.Sound)
    (hc : c.Sound m.heap.scopes) : Fine (callClosure (n + 1) c args) m fun _ _ => True := by
  obtain ⟨enclosing, hserves, hv, hp⟩ := hc
  refine (newScope_fine h hserves.exists_scope _).then fun scope m₁ hscope h₁ _ => ?_
  have hbody := body_stands h hserves hp hscope
  obtain ⟨⟨name, params, body⟩, outer, isInitializer⟩ := c
  refine (inScope_fine ((ih.stmts hbody hv.2 hp.2.2).imp fun _ _ _ _ => trivial)).bind fun completion m₂ h₂ _ => ?_
  exact callResult_fine h₂.sound _ completion

/-- Outside of functions no statement returns. -/
theorem execStmt_fine (ih : Evaluates n) {s : Stmt} (h : m.Stands enclosing) (hv : s.Valid inFunction enclosing)
    (hp : s.Plain) : Fine (execStmt (n + 1) s) m fun completion _ => inFunction = false → completion = .normal := by
  cases s with
  | expression e => exact (ih.expr (e := e) h hv hp).bind fun _ m₁ h₁ _ => .pure h₁.sound fun _ => rfl
  | print e =>
    refine (ih.expr (e := e) h hv hp).bind fun value m₁ h₁ _ => ?_
    have hprint : Fine (print value) m₁ fun _ _ => True := .ok rfl ⟨h₁.sound, .refl _, rfl⟩ trivial
    exact hprint.bind fun _ m₂ h₂ _ => .pure h₂.sound fun _ => rfl
  | var name init =>
    have hdefine : ∀ (value : Value) (m₁ : Machine), m₁.heap.Sound →
        Fine (define name.text value >>= fun _ => pure Completion.normal) m₁ fun completion _ =>
          inFunction = false → completion = .normal := fun value m₁ h₁ =>
      (define_fine h₁ hp.1 value).bind fun _ m₂ h₂ _ => .pure h₂.sound fun _ => rfl
    cases init with
    | none => exact hdefine .nil m h.sound
    | some e => exact (ih.expr h (hv e rfl) (hp.2 e rfl)).bind fun value m₁ h₁ _ => hdefine value m₁ h₁.sound
  | block body =>
    refine Fine.get ((newScope_fine h.sound h.serves.exists_scope _).then fun scope m₁ hscope h₁ _ => ?_)
    exact inScope_fine (ih.stmts (block_stands h hscope) hv hp)
  | ifElse c t e =>
    cases e with
    | none =>
      refine (ih.expr h hv.1 hp.1).bind fun value m₁ h₁ _ => ?_
      split
      · exact ih.stmt (h.later h₁) hv.2 hp.2
      · exact .pure h₁.sound fun _ => rfl
    | some e =>
      refine (ih.expr h hv.1 hp.1).bind fun value m₁ h₁ _ => ?_
      split
      · exact ih.stmt (h.later h₁) hv.2.1 hp.2.1
      · exact ih.stmt (h.later h₁) hv.2.2 hp.2.2
  | loop c b => exact ih.loop h hv.1 hp.1 hv.2 hp.2
  | function d =>
    obtain ⟨name, params, body⟩ := d
    have hc : Closure.Sound m.heap.scopes ⟨.mk name params body, m.scope, false⟩ := ⟨enclosing, h.serves, hv, hp⟩
    refine Fine.get ((newFunction_fine h.sound hc).bind fun value m₁ h₁ _ => ?_)
    exact (define_fine h₁.sound hp.1 value).bind fun _ m₂ h₂ _ => .pure h₂.sound fun _ => rfl
  | ret v =>
    have hreturns : ∀ value : Value, inFunction = false → Completion.returned value = .normal := fun _ hf => by
      cases hv.1.symm.trans hf
    cases v with
    | none => exact .pure h.sound (hreturns _)
    | some e =>
      exact (ih.expr h (hv.2 e rfl) (hp e rfl)).bind fun value m₁ h₁ _ => .pure h₁.sound (hreturns value)
  | classDecl name parent methods =>
    refine (superclass_fine h.sound hp.2.1).bind fun parentId m₁ h₁ hid => ?_
    refine (declareClass_fine (h.later h₁) hp.1 hid ?_ ?_).bind fun _ m₂ h₂ _ => .pure h₂.sound fun _ => rfl
    · exact FunctionDecl.allValid_iff.mp hv.2
    · exact FunctionDecl.allPlain_iff.mp hp.2.2

theorem execStmts_fine (ih : Evaluates n) {ss : List Stmt} (h : m.Stands enclosing)
    (hv : Stmt.AllValid inFunction enclosing ss) (hp : Stmt.AllPlain ss) :
    Fine (execStmts (n + 1) ss) m fun completion _ => inFunction = false → completion = .normal := by
  cases ss with
  | nil => exact .pure h.sound fun _ => rfl
  | cons s ss =>
    refine (ih.stmt h hv.1 hp.1).bind fun completion m₁ h₁ hc => ?_
    cases completion with
    | normal => exact ih.stmts (h.later h₁) hv.2 hp.2
    | returned value => exact .pure h₁.sound hc

theorem execLoop_fine (ih : Evaluates n) {condition : Expr} {body : Stmt} (h : m.Stands enclosing)
    (hc : condition.Valid enclosing) (hc' : condition.Plain) (hb : body.Valid inFunction enclosing) (hb' : body.Plain) :
    Fine (execLoop (n + 1) condition body) m fun completion _ => inFunction = false → completion = .normal := by
  refine (ih.expr h hc hc').bind fun value m₁ h₁ _ => ?_
  split
  · refine (ih.stmt (h.later h₁) hb hb').bind fun completion m₂ h₂ hcompletion => ?_
    cases completion with
    | normal => exact ih.loop ((h.later h₁).later h₂) hc hc' hb hb'
    | returned value => exact .pure h₂.sound hcompletion
  · exact .pure h₁.sound fun _ => rfl

/-- However deep it nests, evaluation is fine. -/
theorem evaluates (n : Nat) : Evaluates n := by
  induction n with
  | zero =>
    exact ⟨fun h _ _ => .exhausted h.sound, fun h _ _ => .exhausted h.sound, fun h => .exhausted h,
      fun h _ => .exhausted h, fun h _ _ => .exhausted h.sound, fun h _ _ => .exhausted h.sound,
      fun h _ _ _ _ => .exhausted h.sound⟩
  | succ n ih =>
    exact ⟨evalExpr_fine ih, evalExprs_fine ih, callValue_fine ih, callClosure_fine ih, execStmt_fine ih,
      execStmts_fine ih, execLoop_fine ih⟩

end

end Lox
