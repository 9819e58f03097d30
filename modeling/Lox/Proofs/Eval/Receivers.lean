/-
  Lox.Proofs.Eval.Receivers — functions and what they are bound to. A function is made either
  by a declaration, and is no initializer then, or by binding a method: it has a scope of its
  own that knows the receiver, which is an object. Nothing that a program does changes that
  binding, and every function, class and object that a value refers to exists
  (`upright_invariant`). So an initializer that comes to its end yields its receiver
  (`callClosure_initializer`), and a class call a new object of the class (`callValue_object`).
-/

import Lox.Proofs.Eval.Trace

namespace Lox

open Eval

/-! ## Growing heaps -/

/-- Nothing is lost, and what functions, classes, receivers and superclasses were they stay. -/
structure Heap.Grows (h h' : Heap) : Prop where
  kept : h.Kept h'
  functions : ∀ (id : Nat) (c : Closure), h.functions[id]? = some c → h'.functions[id]? = some c

theorem Heap.Grows.refl (h : Heap) : h.Grows h := ⟨.refl h, fun _ _ hc => hc⟩

theorem Heap.Grows.trans {h h' h'' : Heap} (hg : h.Grows h') (hg' : h'.Grows h'') : h.Grows h'' :=
  ⟨hg.kept.trans hg'.kept, fun id c hc => hg'.functions id c (hg.functions id c hc)⟩

/-- What a value refers to goes on existing. -/
theorem Value.Backed.grows {h h' : Heap} {v : Value} (hv : v.Backed h) (hg : h.Grows h') : v.Backed h' := by
  cases v with
  | function id =>
    obtain ⟨c, hc⟩ := hv
    exact ⟨c, hg.functions id c hc⟩
  | classRef id =>
    obtain ⟨info, hinfo⟩ := hv
    exact ⟨info, hg.kept.classes id info hinfo⟩
  | object id =>
    obtain ⟨object, hobject⟩ := hv
    obtain ⟨object', hobject', -⟩ := hg.kept.objects id object hobject
    exact ⟨object', hobject'⟩
  | nil | bool | number | string | clock => trivial

theorem Heap.Grows.own? {h h' : Heap} (hg : h.Grows h') {id : ScopeId} {value : Value}
    (hown : h.scopes.own? id thisName = some value) : h'.scopes.own? id thisName = some value := by
  obtain ⟨scope, hscope, -⟩ := Scopes.own?_eq_some.mp hown
  rw [hg.kept.scopes.own?_eq (.inl rfl) (Array.getElem?_eq_some_iff.mp hscope).1]
  exact hown

namespace Evaluation

variable {p e : Evaluation} {pool : List Value} {m m' : Machine}

/-- The names that a statement declares are plain. -/
theorem plain_declared {s : Stmt} {name : Bytes} (h : s.Plain) (hname : s.declared? = some name) : ¬ Reserved name := by
  cases s with
  | var n init =>
    cases hname
    exact h.1
  | function d =>
    cases hname
    obtain ⟨n, params, body⟩ := d
    exact h.1
  | classDecl n clause methods =>
    cases hname
    exact h.1
  | expression | print | block | ifElse | loop | ret => cases hname

/-- No change of its own makes a sound evaluation lose anything. -/
theorem Acts.grows (hp : p.Sound) (h : p.Acts pool m m') : m.heap.Grows m'.heap := by
  have scopes {s : Scopes} (hs : m.heap.scopes.Extends s) : m.heap.Grows { m.heap with scopes := s } :=
    ⟨⟨hs, fun _ _ hi => hi, fun _ object ho => ⟨object, ho, rfl⟩⟩, fun _ _ hc => hc⟩
  have functions (c : Closure) : m.heap.Grows { m.heap with functions := m.heap.functions.push c } :=
    ⟨⟨.refl _, fun _ _ hi => hi, fun _ object ho => ⟨object, ho, rfl⟩⟩, fun _ _ hc => push_keeps c hc⟩
  cases h with
  | assigned hholder _ =>
    obtain ⟨_, -, -, hplain⟩ := hp
    exact scopes (Scopes.define_extends _ _ _ hplain.1)
  | declared hname _ =>
    obtain ⟨_, _, -, -, hplain⟩ := hp
    exact scopes (Scopes.define_extends _ _ _ (plain_declared hplain hname))
  | received => exact scopes (Scopes.push_extends _ _)
  | entered => exact scopes (Scopes.push_extends _ _)
  | opened => exact scopes (Scopes.push_extends _ _)
  | superKnown => exact scopes (Scopes.push_extends _ _)
  | bound => exact functions _
  | functionMade => exact functions _
  | classMade =>
    exact ⟨⟨.refl _, fun _ _ hi => push_keeps _ hi, fun _ object ho => ⟨object, ho, rfl⟩⟩, fun _ _ hc => hc⟩
  | created =>
    exact ⟨⟨.refl _, fun _ _ hi => hi, fun _ object ho => ⟨object, push_keeps _ ho, rfl⟩⟩, fun _ _ hc => hc⟩
  | @stored n o name e m₀ _ _ id value =>
    refine ⟨⟨.refl _, fun _ _ hi => hi, fun other object ho => ?_⟩, fun _ _ hc => hc⟩
    simp only [Machine.setField, Array.getElem?_modify]
    split
    · exact ⟨{ object with fields := object.fields.insert name.text value }, by rw [ho]; rfl, rfl⟩
    · exact ⟨object, ho, rfl⟩
  | called | hungUp | timed | moved | printed => exact .refl _

/-- The machines of an evaluation grow from its start to its end. -/
theorem between_grows (hp : p.Sound) : Between (fun m m' => m.heap.Grows m'.heap) p.machine p.trace p.final :=
  trace_between (fun m => .refl m.heap) (fun _ _ _ h h' => h.trans h') fun he _ _ _ hact => hact.grows (he.sound hp)

/-! ## What is held -/

theorem holds_of_single {h : Heap} {name other : Bytes} {v v' : Value} (hv : v.FoundIn h)
    (hget : (Table.empty.insert name v).get? other = some v') : v'.FoundIn h := by
  rw [Table.get?_insert] at hget
  split at hget
  · cases hget
    exact hv
  · cases hget

/-- What is held after a change was at hand before, or found in the heap. -/
theorem Acts.holds (h : p.Acts pool m m') {v : Value} (hv : m'.heap.Holds v) : v ∈ pool ∨ v.FoundIn m.heap := by
  have old (hv : m.heap.Holds v) : v ∈ pool ∨ v.FoundIn m.heap := .inr (.inr hv)
  have scopes {outer : Option ScopeId} {bindings : Table Value}
      (hb : ∀ name v, bindings.get? name = some v → v ∈ pool ∨ v.FoundIn m.heap)
      (hv : (m.addScope ⟨outer, bindings⟩).heap.Holds v) : v ∈ pool ∨ v.FoundIn m.heap := by
    rcases hv with ⟨id, name, hown⟩ | hfield
    · rcases Scopes.own?_push hown with hold | ⟨-, hget⟩
      · exact old (.inl ⟨id, name, hold⟩)
      · exact hb name v hget
    · exact old (.inr hfield)
  have names {holder : ScopeId} {name : Bytes} {value : Value} (hvalue : value ∈ pool ∨ value.FoundIn m.heap)
      (hv : (m.bindName holder name value).heap.Holds v) : v ∈ pool ∨ v.FoundIn m.heap := by
    rcases hv with ⟨id, other, hown⟩ | hfield
    · rcases Scopes.own?_define hown with hold | rfl
      · exact old (.inl ⟨id, other, hold⟩)
      · exact hvalue
    · exact old (.inr hfield)
  cases h with
  | assigned _ hvalue => exact names (.inl hvalue) hv
  | declared _ hvalue => exact names hvalue hv
  | received _ hr => exact scopes (fun _ _ hget => .inr (holds_of_single hr hget)) hv
  | superKnown hid => exact scopes (fun _ _ hget => .inr (holds_of_single hid hget)) hv
  | opened => exact scopes (fun _ _ hget => by cases hget) hv
  | entered hargs =>
    refine scopes (fun _ _ hget => .inl ?_) hv
    exact Scopes.bindAll_all (P := (· ∈ pool)) (fun _ ha => hargs ha) _ (fun _ _ hempty => by cases hempty) hget
  | created =>
    rcases hv with hown | ⟨id, object, name, hobject, hget⟩
    · exact old (.inl hown)
    · rcases push_cases hobject with ⟨-, rfl⟩ | hobject
      · cases hget
      · exact old (.inr ⟨id, object, name, hobject, hget⟩)
  | stored hvalue =>
    rcases hv with hown | ⟨other, object, name, hobject, hget⟩
    · exact old (.inl hown)
    · simp only [Machine.setField, Array.getElem?_modify] at hobject
      split at hobject
      · obtain ⟨before, hbefore, rfl⟩ := Option.map_eq_some_iff.mp hobject
        rw [Table.get?_insert] at hget
        split at hget
        · cases hget
          exact .inl hvalue
        · exact old (.inr ⟨other, before, name, hbefore, hget⟩)
      · exact old (.inr ⟨other, object, name, hobject, hget⟩)
  | bound | functionMade | classMade | called | hungUp | timed | moved | printed => exact old hv

end Evaluation

/-! ## Functions -/

/-- The function is the method of some class, in a scope of its own that binds the receiver to
the object. -/
structure Heap.Bound (h : Heap) (c method : Closure) (object : ObjectId) : Prop where
  declared : ∃ home, h.Declared home method
  declaration : c.declaration = method.declaration
  initializer : c.isInitializer = method.isInitializer
  inside : ∃ scope, h.scopes.all[c.scope]? = some scope ∧ scope.enclosing = some method.scope
  receiver : h.scopes.own? c.scope thisName = some (.object object)

theorem Heap.Bound.grows {h h' : Heap} {c method : Closure} {object : ObjectId} (hb : h.Bound c method object)
    (hg : h.Grows h') : h'.Bound c method object := by
  obtain ⟨home, hdeclared⟩ := hb.declared
  obtain ⟨scope, hscope, henclosing⟩ := hb.inside
  obtain ⟨scope', hscope', henclosing', -⟩ := hg.kept.scopes c.scope scope hscope
  exact ⟨⟨home, hdeclared.kept hg.kept⟩, hb.declaration, hb.initializer,
    ⟨scope', hscope', henclosing'.trans henclosing⟩, hg.own? hb.receiver⟩

def Evaluation.Declares (run : Evaluation) (id : FunctionId) (c : Closure) : Prop :=
  ∃ n d m, Visits run ⟨n + 1, .stmt (.function d), m⟩ ∧ id = m.heap.functions.size ∧ c = ⟨d, m.scope, false⟩

/-- Values refer to what exists, and every function was made in one of the two ways. -/
structure Machine.Upright (Made : FunctionId → Closure → Prop) (m : Machine) (live : List Value) : Prop where
  held : ∀ v, m.heap.Holds v → v.Backed m.heap
  live : ∀ v ∈ live, v.Backed m.heap
  functions : ∀ (id : Nat) (c : Closure), m.heap.functions[id]? = some c →
    Made id c ∨ ∃ method object, m.heap.Bound c method object

namespace Evaluation

variable {p e run : Evaluation} {pool : List Value} {m m' : Machine}

/-- A change adds at most one function: by a declaration, or as a bound method. -/
theorem Acts.functions (h : p.Acts pool m m') {id : Nat} {c : Closure} (hc : m'.heap.functions[id]? = some c) :
    m.heap.functions[id]? = some c ∨
    (∃ n d, p = ⟨n + 1, .stmt (.function d), m⟩ ∧ id = m.heap.functions.size ∧ c = ⟨d, m.scope, false⟩) ∨
    ∃ method object, m'.heap.Bound c method object := by
  cases h with
  | functionMade =>
    rcases push_cases hc with ⟨rfl, rfl⟩ | hold
    · exact .inr (.inl ⟨_, _, rfl, rfl, rfl⟩)
    · exact .inl hold
  | @bound _ _ _ home method receiver scope hdeclared hscope =>
    rcases push_cases hc with ⟨-, rfl⟩ | hold
    · refine .inr (.inr ⟨method, receiver, ⟨home, hdeclared⟩, rfl, rfl, ⟨_, hscope, rfl⟩, ?_⟩)
      exact Scopes.own?_eq_some.mpr ⟨_, hscope, Table.get?_insert_self _ _ _⟩
    · exact .inl hold
  | _ => exact .inl hc

theorem upright_invariant {Made : FunctionId → Closure → Prop} (hmade : ∀ id c, run.Declares id c → Made id c) :
    Invariant (fun p => Visits run p ∧ p.Sound) (Machine.Upright Made) where
  acts := by
    intro p pool m m' ⟨hvisits, hsound⟩ hact hm
    have hgrows := hact.grows hsound
    have backed {v : Value} (hv : v ∈ pool ∨ v.FoundIn m.heap) : v.Backed m.heap := by
      rcases hv with hv | hv | hv
      · exact hm.live v hv
      · exact hv
      · exact hm.held v hv
    refine ⟨fun v hv => (backed (hact.holds hv)).grows hgrows, fun v hv => (hm.live v hv).grows hgrows, fun id c hc => ?_⟩
    rcases hact.functions hc with hold | ⟨n, d, rfl, hid, hc⟩ | hbound
    · rcases hm.functions id c hold with hmade | ⟨method, object, hbound⟩
      · exact .inl hmade
      · exact .inr ⟨method, object, hbound.grows hgrows⟩
    · exact .inl (hmade id c ⟨n, d, m, hvisits, hid, hc⟩)
    · exact .inr hbound
  found := by
    intro m pool pool' hm hv
    refine ⟨hm.held, fun v hmem => ?_, hm.functions⟩
    rcases hv v hmem with hv | hv | hv
    · exact hm.live v hv
    · exact hv
    · exact hm.held v hv
  part := fun ⟨hvisits, hsound⟩ hpart _ => ⟨hvisits.part hpart, hpart.sound hsound⟩

/-! ## Initializers and class calls -/

/-- An initializer that comes to its end yields what its scope has for the receiver then. -/
theorem callClosure_own {n : Nat} {c : Closure} {args : List Value} {v : Value} (hc : c.isInitializer = true)
    (h : callClosure n c args m = (.ok v, m')) : v = (m'.heap.scopes.own? c.scope thisName).getD .nil := by
  cases n with
  | zero => cases h
  | succ n =>
    have hrun : (inScope m.heap.scopes.next (execStmts n c.declaration.body) >>= callResult c)
        (m.addScope ⟨some c.scope, Scopes.bindAll Table.empty c.declaration.parameters args⟩) = (.ok v, m') := h
    rw [bind_run] at hrun
    split at hrun
    · simp only [callResult, hc, if_true, get_bind] at hrun
      cases hrun
      rfl
    · cases hrun

/-- An initializer yields its receiver, however it returns. -/
theorem callClosure_initializer {n : Nat} {c : Closure} {args : List Value} {v : Value} {object : ObjectId}
    (hs : Sound ⟨n, .closure c args, m⟩) (hc : c.isInitializer = true)
    (hthis : m.heap.scopes.own? c.scope thisName = some (.object object))
    (h : callClosure n c args m = (.ok v, m')) : v = .object object := by
  have hgrows : m.heap.Grows (callClosure n c args m).2.heap := (between_grows hs).ends
  rw [h] at hgrows
  rw [callClosure_own hc h, hgrows.own? hthis]
  rfl

/-- Whatever an initializer does, the object that was made for it is what the call comes to. -/
theorem callValue_object {n : Nat} {id : ClassId} {args : List Value} {v : Value}
    (hs : Sound ⟨n, .call (.classRef id) args, m⟩) (h : callValue n (.classRef id) args m = (.ok v, m')) :
    v = .object m.heap.objects.size ∧
      ∃ object, m'.heap.objects[m.heap.objects.size]? = some object ∧ object.classId = id := by
  cases n with
  | zero => cases h
  | succ n =>
    have hmade : (m.addObject ⟨id, {}⟩).heap.objects[m.heap.objects.size]? = some ⟨id, {}⟩ := Array.getElem?_push_size
    rw [callValue_class] at h
    rcases hmethod : (m.addObject ⟨id, {}⟩).heap.method? id initializerName with _ | method
    · rw [hmethod] at h
      cases h
      exact ⟨rfl, _, hmade, rfl⟩
    · have hpart : Part ⟨n + 1, .call (.classRef id) args, m⟩
          ⟨n, .closure { method with scope := m.heap.scopes.next } args,
            (m.addObject ⟨id, {}⟩).addScope (method.receiving m.heap.objects.size)⟩ := .initializer rfl hmethod rfl
      have hgrows := (between_grows (hpart.sound hs)).ends
      obtain ⟨object, hobject, hclass⟩ := hgrows.kept.objects _ _ hmade
      rw [hmethod] at h
      dsimp only at h
      rw [bind_run] at h
      split at h
      · rename_i hcall
        cases h
        rw [final, outcome, hcall] at hobject
        exact ⟨rfl, object, hobject, hclass⟩
      · cases h

end Evaluation

end Lox
