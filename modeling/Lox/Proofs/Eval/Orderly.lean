/-
  Lox.Proofs.Eval.Orderly — evaluation keeps heaps orderly. A machine is ready for code if
  its heap is orderly and its scope is fit for what the code speaks of; every step leaves
  such a machine, whether it ends or halts (`orders`), and so does every evaluation that a
  run is made of start in one (`Visits.orderly`).
-/

import Lox.Proofs.Eval.Families
import Lox.Proofs.Eval.Parts

namespace Lox

/-- A later machine with an orderly heap that has kept everything. -/
structure Machine.Onward (m m' : Machine) : Prop where
  later : m.Later m'
  orderly : m'.heap.Orderly
  kept : m.heap.Kept m'.heap

theorem Machine.Onward.refl {m : Machine} (hs : m.heap.Sound) (ho : m.heap.Orderly) : m.Onward m :=
  ⟨.refl hs, ho, .refl _⟩

theorem Machine.Onward.trans {m m' m'' : Machine} (h : m.Onward m') (h' : m'.Onward m'') : m.Onward m'' :=
  ⟨h.later.trans h'.later, h'.orderly, h.kept.trans h'.kept⟩

structure Machine.Neat (m : Machine) : Prop where
  sound : m.heap.Sound
  orderly : m.heap.Orderly

theorem Machine.Onward.neat {m m' : Machine} (h : m.Onward m') : m'.Neat := ⟨h.later.sound, h.orderly⟩

/-- The machine can run code that stands in such a class and speaks of the superclass in
these places. Nothing is ever run in the scope that knows the superclass itself. -/
structure Machine.Ready (m : Machine) (enclosing : EnclosingClass) (supers : List (Nat × Name)) : Prop where
  stands : m.Stands enclosing
  orderly : m.heap.Orderly
  clear : m.heap.scopes.own? m.scope superName = none
  houses : m.heap.Houses m.scope supers

namespace Machine.Ready

variable {m m' : Machine} {enclosing : EnclosingClass} {supers supers' : List (Nat × Name)}

theorem neat (h : m.Ready enclosing supers) : m.Neat := ⟨h.stands.sound, h.orderly⟩

/-- A later machine is ready for the same code. -/
theorem onward (h : m.Ready enclosing supers) (ho : m.Onward m') : m'.Ready enclosing supers := by
  refine ⟨h.stands.later ho.later, ho.orderly, ?_, ?_⟩
  · rw [ho.later.scope, ho.kept.scopes.own?_eq (.inr rfl) h.stands.serves.exists_scope]
    exact h.clear
  · rw [ho.later.scope]
    exact h.houses.kept h.stands.sound.ordered ho.kept

theorem part (h : m.Ready enclosing supers) (hsub : ∀ place ∈ supers', place ∈ supers) : m.Ready enclosing supers' :=
  ⟨h.stands, h.orderly, h.clear, h.houses.part hsub⟩

theorem left (h : m.Ready enclosing (supers ++ supers')) : m.Ready enclosing supers :=
  h.part fun _ => List.mem_append_left supers'

theorem right (h : m.Ready enclosing (supers ++ supers')) : m.Ready enclosing supers' :=
  h.part fun _ => List.mem_append_right supers

end Machine.Ready

namespace Eval

variable {α β : Type}

/-- The step leaves such a machine. It ends with such a value, or halts. -/
inductive Orderly (x : Eval α) (m : Machine) (Q : α → Machine → Prop) : Prop
  | ok {a : α} {m' : Machine} : x m = (.ok a, m') → m.Onward m' → Q a m' → Orderly x m Q
  | halted {halt : Halt} {m' : Machine} : x m = (.error halt, m') → m.Onward m' → Orderly x m Q

section

variable {m : Machine} {x : Eval α} {f : α → Eval β} {Q : α → Machine → Prop} {R : β → Machine → Prop}

theorem Orderly.pure {a : α} (h : m.Neat) (hq : Q a m) : Orderly (pure a) m Q := .ok rfl (.refl h.sound h.orderly) hq

theorem Orderly.fail (h : m.Neat) (line : Nat) (fault : RuntimeFault) : Orderly (fail line fault : Eval α) m Q :=
  .halted rfl (.refl h.sound h.orderly)

theorem Orderly.exhausted (h : m.Neat) : Orderly (exhausted : Eval α) m Q := .halted rfl (.refl h.sound h.orderly)

/-- Steps in sequence, where the second may use how the first ended. -/
theorem Orderly.then (hx : Orderly x m Q)
    (hf : ∀ a m', x m = (.ok a, m') → m.Onward m' → Q a m' → Orderly (f a) m' R) : Orderly (x >>= f) m R := by
  rcases hx with ⟨hx, honward, hq⟩ | ⟨hx, honward⟩
  · rcases hf _ _ hx honward hq with ⟨hfx, honward', hr⟩ | ⟨hfx, honward'⟩
    · exact .ok ((bind_ok hx).trans hfx) (honward.trans honward') hr
    · exact .halted ((bind_ok hx).trans hfx) (honward.trans honward')
  · exact .halted (bind_error hx) honward

theorem Orderly.bind (hx : Orderly x m Q) (hf : ∀ a m', m.Onward m' → Q a m' → Orderly (f a) m' R) :
    Orderly (x >>= f) m R :=
  hx.then fun a m' _ => hf a m'

theorem Orderly.onward {a : α} {m' : Machine} (h : Orderly x m Q) (hx : x m = (.ok a, m')) : m.Onward m' ∧ Q a m' := by
  rcases h with ⟨hx', honward, hq⟩ | ⟨hx', -⟩
  · cases hx.symm.trans hx'
    exact ⟨honward, hq⟩
  · cases hx.symm.trans hx'

theorem Orderly.leaves {r : Except Halt α} {m' : Machine} (h : Orderly x m Q) (hx : x m = (r, m')) : m.Onward m' := by
  rcases h with ⟨hx', honward, -⟩ | ⟨hx', honward⟩
  · cases hx.symm.trans hx'
    exact honward
  · cases hx.symm.trans hx'
    exact honward

theorem Orderly.get {f : Machine → Eval β} (h : Orderly (f m) m R) : Orderly (MonadState.get >>= f) m R := by
  rcases h with ⟨hx, honward, hr⟩ | ⟨hx, honward⟩
  · exact .ok ((get_bind f m).trans hx) honward hr
  · exact .halted ((get_bind f m).trans hx) honward

theorem inScope_orderly {scope : ScopeId} (h : Orderly x { m with scope } Q)
    (hq : ∀ a m', Q a m' → Q a { m' with scope := m.scope }) : Orderly (inScope scope x) m Q := by
  rcases h with ⟨hx, honward, hqa⟩ | ⟨hx, honward⟩
  · exact .ok (inScope_run hx) ⟨⟨honward.later.sound, honward.later.extend, rfl⟩, honward.orderly, honward.kept⟩ (hq _ _ hqa)
  · exact .halted (inScope_run hx) ⟨⟨honward.later.sound, honward.later.extend, rfl⟩, honward.orderly, honward.kept⟩

/-- The depth has no part in being orderly. -/
theorem deeper_orderly (h : Orderly x { m with depth := m.depth + 1 } Q)
    (hq : ∀ a m', Q a m' → Q a { m' with depth := m'.depth - 1 }) : Orderly (deeper x) m Q := by
  rcases h with ⟨hx, honward, hqa⟩ | ⟨hx, honward⟩
  · exact .ok (deeper_run hx)
      ⟨⟨honward.later.sound, honward.later.extend, honward.later.scope⟩, honward.orderly, honward.kept⟩ (hq _ _ hqa)
  · exact .halted (deeper_run hx)
      ⟨⟨honward.later.sound, honward.later.extend, honward.later.scope⟩, honward.orderly, honward.kept⟩

end

def Yields (value : Value) (m : Machine) : Prop := value.Known m.heap

variable {m : Machine}

/-! ## Names -/

theorem lookup_orderly (h : m.Neat) (name : Name) : Orderly (lookup name) m Yields := by
  refine Orderly.get ?_
  split
  · rename_i value hvalue
    exact .pure h (h.orderly.known hvalue)
  · exact .fail h _ _

theorem define_onward (h : m.Neat) {name : Bytes} (hn : ¬ Reserved name) {value : Value} (hv : value.Known m.heap)
    (holder : Nat) : m.Onward { m with heap := { m.heap with scopes := m.heap.scopes.define holder name value } } := by
  have hlater := define_later h.sound hn value holder
  refine ⟨hlater, ?_, hlater.extend, fun _ _ hi => hi, fun _ object ho => ⟨object, ho, rfl⟩⟩
  refine h.orderly.withScopes h.sound hlater.extend fun id other value' hown => ?_
  exact (Scopes.own?_define hown).imp_right fun heq => by rw [heq]; exact hv

theorem define_orderly (h : m.Neat) {name : Bytes} (hn : ¬ Reserved name) {value : Value} (hv : value.Known m.heap) :
    Orderly (define name value) m fun _ _ => True :=
  .ok rfl (define_onward h hn hv m.scope) trivial

theorem assign_orderly (h : m.Neat) {name : Name} (hn : name.Plain) {value : Value} (hv : value.Known m.heap) :
    Orderly (assign name value) m fun _ _ => True := by
  cases hholder : m.heap.scopes.holder? m.scope name.text with
  | some holder => exact .ok (assign_bound hholder) (define_onward h hn hv holder) trivial
  | none => exact .halted (assign_unbound hholder) (.refl h.sound h.orderly)

/-! ## New things -/

/-- A table with one binding. -/
theorem single_known (name : Bytes) {value : Value} {h : Heap} (hv : value.Known h) :
    ∀ other value', (Table.empty.insert name value).get? other = some value' → value'.Known h := by
  intro other value' hget
  rw [Table.get?_insert] at hget
  split at hget
  · cases hget
    exact hv
  · cases hget

/-- A new scope is orderly if all that it binds is known. -/
theorem newScope_orderly (h : m.Neat) {outer : Nat} (ho : outer < m.heap.scopes.all.size) {bindings : Table Value}
    (hb : ∀ name value, bindings.get? name = some value → value.Known m.heap) :
    Orderly (newScope outer bindings) m fun id m' =>
      id = m.heap.scopes.next ∧ m'.heap = { m.heap with scopes := m.heap.scopes.push ⟨some outer, bindings⟩ } := by
  have hlater := ((newScope_fine h.sound ho bindings).later rfl).1
  refine .ok rfl ⟨hlater, ?_, hlater.extend, fun _ _ hi => hi, fun _ object ho => ⟨object, ho, rfl⟩⟩ ⟨rfl, rfl⟩
  refine h.orderly.withScopes h.sound hlater.extend fun id name value hown => ?_
  exact (Scopes.own?_push hown).imp_right fun hnew => hb name value hnew.2

theorem newFunction_orderly (h : m.Neat) {c : Closure} (hc : c.Sound m.heap.scopes)
    (hh : m.heap.Houses c.scope c.declaration.supers) : Orderly (newFunction c) m Yields := by
  have hlater := ((newFunction_fine h.sound hc).later rfl).1
  have hkept : m.heap.Kept { m.heap with functions := m.heap.functions.push c } :=
    ⟨.refl _, fun _ _ hi => hi, fun _ object ho => ⟨object, ho, rfl⟩⟩
  refine .ok rfl ⟨hlater, ?_, hkept⟩ (fun id heq => by cases heq)
  refine ⟨h.orderly.bound, h.orderly.fields, h.orderly.older, h.orderly.derived, h.orderly.apart, h.orderly.base,
    fun id c' hc' => ?_⟩
  rcases push_cases hc' with ⟨-, rfl⟩ | hold
  · exact hh.kept h.sound.ordered hkept
  · exact (h.orderly.functions id c' hold).kept h.sound.ordered hkept

theorem newObject_orderly (h : m.Neat) (classId : ClassId) :
    Orderly (newObject classId) m fun id m' => m'.heap.objects[id]? = some ⟨classId, {}⟩ := by
  have hlater := ((newObject_fine h.sound classId).later rfl).1
  have hold : ∀ (id : Nat) (object : Object), m.heap.objects[id]? = some object →
      ∃ object', (m.heap.objects.push ⟨classId, {}⟩)[id]? = some object' ∧ object'.classId = object.classId :=
    fun _ object hobject => ⟨object, push_keeps _ hobject, rfl⟩
  refine .ok rfl ⟨hlater, ?_, .refl _, fun _ _ hi => hi, hold⟩ (by simp)
  refine h.orderly.withObjects h.sound hold fun id object name value hobject hget => ?_
  rcases push_cases hobject with ⟨-, rfl⟩ | hold
  · cases hget
  · exact h.orderly.fields id object name value hold hget

theorem setField_orderly (h : m.Neat) (id : ObjectId) (name : Bytes) {value : Value} (hv : value.Known m.heap) :
    Orderly (setField id name value) m fun _ _ => True := by
  have hlater := ((setField_fine h.sound id name value).later rfl).1
  have hold : ∀ (other : Nat) (object : Object), m.heap.objects[other]? = some object →
      ∃ object', (m.heap.objects.modify id fun o => { o with fields := o.fields.insert name value })[other]? = some object' ∧
        object'.classId = object.classId := by
    intro other object hobject
    rw [Array.getElem?_modify]
    split
    · exact ⟨{ object with fields := object.fields.insert name value }, by rw [hobject]; rfl, rfl⟩
    · exact ⟨object, hobject, rfl⟩
  refine .ok rfl ⟨hlater, ?_, .refl _, fun _ _ hi => hi, hold⟩ trivial
  refine h.orderly.withObjects h.sound hold fun other object name' value' hobject hget => ?_
  rw [Array.getElem?_modify] at hobject
  split at hobject
  · obtain ⟨old, hold, rfl⟩ := Option.map_eq_some_iff.mp hobject
    rw [Table.get?_insert] at hget
    split at hget
    · cases hget
      exact hv
    · exact h.orderly.fields other old name' value' hold hget
  · exact h.orderly.fields other object name' value' hobject hget

/-- A method of a class, bound to an object of that class or of one below it, is at home. -/
theorem bindReceiver_orderly (h : m.Neat) {home : ClassId} {method : Closure} (hd : m.heap.Declared home method)
    {receiver : ObjectId} {object : Object} (hr : m.heap.objects[receiver]? = some object)
    (hdescends : m.heap.Descends object.classId home) :
    Orderly (bindReceiver method receiver) m fun c m' =>
      c.Sound m'.heap.scopes ∧ m'.heap.Houses c.scope c.declaration.supers := by
  obtain ⟨info, name, hinfo, hmethod⟩ := hd
  have hsound := h.sound.methods home info name method hinfo hmethod
  have hlt : method.scope < m.heap.scopes.all.size := h.sound.declared_lt ⟨info, name, hinfo, hmethod⟩
  have hbindings := single_known thisName (show (Value.object receiver).Known m.heap from fun _ heq => by cases heq)
  have hfine := bindReceiver_fine h.sound hsound receiver
  refine Orderly.then (newScope_orderly h hlt hbindings) fun id m' hscope honward hid => ?_
  have hc := (hfine.later (show bindReceiver method receiver m = _ from bind_ok hscope)).2
  refine .pure honward.neat ⟨hc, fun hne => ?_⟩
  obtain ⟨rfl, hheap⟩ := hid
  cases hparent : info.superclass with
  | none => exact absurd (h.orderly.base home info name method hinfo hmethod hparent) hne
  | some parent =>
    have hown := h.orderly.derived home info name method parent hinfo hmethod hparent
    have hnone : (Table.empty.insert thisName (Value.object receiver)).get? superName = none := by
      rw [Table.get?_insert, if_neg thisName_ne_superName.symm]
      rfl
    have hdeclared : m'.heap.Declared home method := Heap.Declared.kept ⟨info, name, hinfo, hmethod⟩ honward.kept
    have hscopes : m'.heap.scopes = m.heap.scopes.push ⟨some method.scope, Table.empty.insert thisName (.object receiver)⟩ := by
      rw [hheap]
    have hnext := Scopes.getElem?_push_next m.heap.scopes
      ⟨some method.scope, Table.empty.insert thisName (.object receiver)⟩
    rw [← hscopes] at hnext
    refine ⟨home, ⟨.method hnext (Table.get?_insert_self _ _ _) rfl hdeclared,
      ⟨info, parent, honward.kept.classes _ _ hinfo, hparent, ?_⟩, receiver, object, ?_, ?_, hdescends.kept honward.kept⟩,
      fun place hp => ⟨method, hdeclared, hp⟩⟩
    · rw [hscopes]
      exact Scopes.get?_push_outer h.sound.ordered hlt _ hnone (.inr rfl) (Scopes.get?_of_own hown)
    · rw [hscopes]
      exact Scopes.get?_push_own _ _ (Table.get?_insert_self _ _ _)
    · rw [hheap]
      exact hr

/-- A bound method knows a receiver whose class descends from the method's own. -/
theorem bindMethod_orderly (h : m.Neat) {home : ClassId} {method : Closure} (hd : m.heap.Declared home method)
    {receiver : ObjectId} {object : Object} (hr : m.heap.objects[receiver]? = some object)
    (hdescends : m.heap.Descends object.classId home) : Orderly (bindMethod method receiver) m Yields :=
  (bindReceiver_orderly h hd hr hdescends).bind fun _ _ honward hc => newFunction_orderly honward.neat hc.1 hc.2

/-! ## Operators and objects -/

theorem yields_nil (m : Machine) : Yields .nil m := nofun

theorem yields_bool (b : Bool) (m : Machine) : Yields (.bool b) m := nofun

theorem yields_number (x : Float) (m : Machine) : Yields (.number x) m := nofun

theorem yields_string (s : Bytes) (m : Machine) : Yields (.string s) m := nofun

theorem applyUnary_orderly (h : m.Neat) (op : UnaryOp) (line : Nat) (v : Value) : Orderly (applyUnary op line v) m Yields := by
  unfold applyUnary
  split
  · exact .pure h (yields_bool _ m)
  · exact .pure h (yields_number _ m)
  · exact .fail h _ _

theorem numbers_orderly (h : m.Neat) (line : Nat) {f : Float → Float → Value} (hf : ∀ a b, Yields (f a b) m)
    (l r : Value) : Orderly (numbers line f l r) m Yields := by
  unfold numbers
  split
  · exact .pure h (hf _ _)
  · exact .fail h _ _

theorem applyBinary_orderly (h : m.Neat) (op : BinaryOp) (line : Nat) (l r : Value) :
    Orderly (applyBinary op line l r) m Yields := by
  cases op with
  | equal => exact .pure h (yields_bool _ m)
  | notEqual => exact .pure h (yields_bool _ m)
  | add =>
    simp only [applyBinary]
    split
    · exact .pure h (yields_number _ m)
    · exact .pure h (yields_string _ m)
    · exact .fail h _ _
  | subtract => exact numbers_orderly h line (fun _ _ => yields_number _ m) l r
  | multiply => exact numbers_orderly h line (fun _ _ => yields_number _ m) l r
  | divide => exact numbers_orderly h line (fun _ _ => yields_number _ m) l r
  | _ => exact numbers_orderly h line (fun _ _ => yields_bool _ m) l r

theorem expectObject_orderly (h : m.Neat) (line : Nat) (fault : RuntimeFault) (v : Value) :
    Orderly (expectObject line fault v) m fun _ _ => True := by
  unfold expectObject
  split
  · exact .pure h trivial
  · exact .fail h _ _

theorem getProperty_orderly (h : m.Neat) (id : ObjectId) (name : Name) : Orderly (getProperty id name) m Yields := by
  refine Orderly.get ?_
  simp only
  split
  · exact .fail h _ _
  · rename_i object hobject
    split
    · rename_i value hvalue
      exact .pure h (h.orderly.fields id object name.text value hobject hvalue)
    · split
      · rename_i method hmethod
        obtain ⟨home, hdescends, hdeclared⟩ := Heap.methodWithin?_declared hmethod
        exact bindMethod_orderly h hdeclared hobject hdescends
      · exact .fail h _ _

/-- At home, what is left is to find the method from the superclass on. -/
theorem superMethod_home {parent : ClassId} {receiver : ObjectId}
    (hsuper : m.heap.scopes.get? m.scope superName = some (.classRef parent))
    (hthis : m.heap.scopes.get? m.scope thisName = some (.object receiver)) (line : Nat) (method : Name) :
    superMethod line method m = (match m.heap.method? parent method.text with
      | some found => bindMethod found receiver
      | none => fail method.line (.undefinedProperty method.text)) m := by
  unfold superMethod
  rw [bind_ok (lookup_run hsuper)]
  show (lookup ⟨thisName, line⟩ >>= _) m = _
  rw [bind_ok (lookup_run hthis)]
  rfl

/-- Where code may speak of the superclass, the method that it gets is known. -/
theorem superMethod_orderly {enclosing : EnclosingClass} {line : Nat} {method : Name}
    (h : m.Ready enclosing [(line, method)]) : Orderly (superMethod line method) m Yields := by
  obtain ⟨home, hhome, -⟩ := h.houses (List.cons_ne_nil _ _)
  obtain ⟨-, ⟨info, parent, hinfo, hparent, hsuper⟩, receiver, object, hthis, hobject, hdescends⟩ := hhome
  have hfound : Orderly (match m.heap.method? parent method.text with
      | some found => bindMethod found receiver
      | none => fail method.line (.undefinedProperty method.text)) m Yields := by
    split
    · rename_i found hfound
      obtain ⟨home', hdescends', hdeclared⟩ := Heap.methodWithin?_declared hfound
      exact bindMethod_orderly h.neat hdeclared hobject (hdescends.trans (.up hinfo hparent hdescends'))
    · exact .fail h.neat _ _
  have hrun := superMethod_home hsuper hthis line method
  rcases hfound with ⟨hx, honward, hq⟩ | ⟨hx, honward⟩
  · exact .ok (hrun.trans hx) honward hq
  · exact .halted (hrun.trans hx) honward

theorem checkCall_orderly (h : m.Neat) (callee : Value) (count line : Nat) :
    Orderly (checkCall callee count line) m fun _ _ => True := by
  refine Orderly.get ?_
  split
  · exact .fail h _ _
  · split
    · exact .fail h _ _
    · split
      · exact .fail h _ _
      · exact .pure h trivial

def Completes (completion : Completion) (m : Machine) : Prop := ∀ value, completion = .returned value → Yields value m

theorem callResult_orderly (h : m.Neat) (c : Closure) {completion : Completion} (hc : Completes completion m) :
    Orderly (callResult c completion) m Yields := by
  unfold callResult
  split
  · refine Orderly.get (.pure h ?_)
    cases hown : m.heap.scopes.own? c.scope thisName with
    | none => exact yields_nil m
    | some value => exact h.orderly.bound _ _ _ hown
  · cases completion with
    | normal => exact .pure h (yields_nil m)
    | returned value => exact .pure h (hc value rfl)

/-! ## Classes -/

theorem superclass_orderly (h : m.Neat) (parent : Option Name) :
    Orderly (superclass parent) m fun id m' =>
      id.isSome = parent.isSome ∧ ∀ p, id = some p → ∃ info, m'.heap.classes[p]? = some info := by
  cases parent with
  | none => exact .pure h ⟨rfl, nofun⟩
  | some name =>
    refine (lookup_orderly h name).bind fun value m' honward hv => ?_
    split
    · rename_i id
      refine .pure honward.neat ⟨rfl, fun p hp => ?_⟩
      cases hp
      exact hv id rfl
    · exact .fail honward.neat _ _

theorem newClass_orderly (h : m.Neat) {info : ClassInfo}
    (hm : ∀ name c, info.methods.get? name = some c → c.SoundMethod m.heap.scopes)
    (hparent : ∀ parent, info.superclass = some parent → ∃ info', m.heap.classes[parent]? = some info')
    (hderived : ∀ name c parent, info.methods.get? name = some c → info.superclass = some parent →
      m.heap.scopes.own? c.scope superName = some (.classRef parent))
    (hfresh : ∀ name c id c' value, info.methods.get? name = some c → m.heap.Declared id c' → c.scope = c'.scope →
      m.heap.scopes.own? c.scope superName ≠ some value)
    (hbase : ∀ name c, info.methods.get? name = some c → info.superclass = none → c.declaration.supers = []) :
    Orderly (newClass info) m Yields := by
  have hlater := ((newClass_fine h.sound hm).later rfl).1
  refine .ok rfl ⟨hlater, h.orderly.withClass h.sound hparent hderived hfresh hbase, .refl _,
    fun id old => push_keeps info, fun _ object ho => ⟨object, ho, rfl⟩⟩ fun id heq => ?_
  cases heq
  exact ⟨info, by simp⟩

/-- A class is made whose methods stand in this scope. -/
theorem defineClass_orderly (h : m.Neat) {name : Bytes} (hn : ¬ Reserved name) {parentId : Option ClassId}
    {parent : Option Name} (hid : parentId.isSome = parent.isSome)
    (hknown : ∀ p, parentId = some p → ∃ info, m.heap.classes[p]? = some info) {methods : List FunctionDecl}
    (hv : ∀ d ∈ methods, d.Valid (.ofParent parent)) (hp : ∀ d ∈ methods, d.Plain) {scope : Nat}
    (hlt : scope < m.heap.scopes.all.size)
    (hsuper : ∀ p, parentId = some p → m.heap.scopes.own? scope superName = some (.classRef p))
    (hfresh : ∀ id c value, m.heap.Declared id c → scope = c.scope → m.heap.scopes.own? scope superName ≠ some value) :
    Orderly (newClass ⟨name, parentId, methodTable scope methods⟩ >>= define name) m fun _ _ => True := by
  have hscope : ∀ other c, (methodTable scope methods).get? other = some c → c.scope = scope :=
    fun other c hc => methodTable_all (P := fun c => c.scope = scope) (fun _ _ => rfl) hc
  refine (newClass_orderly h (fun other c hc => ?_) hknown (fun other c p hc hp => ?_)
    (fun other c id c' value hc hd heq => ?_) fun other c hc hnone => ?_).bind fun value m' honward hvalue =>
      define_orderly honward.neat hn hvalue
  · refine methodTable_all (fun d hd => ⟨.ofParent parent, hlt, fun hc => ?_, hv d hd, hp d hd⟩) hc
    cases parentId with
    | none => cases parent <;> cases hid; cases hc
    | some p => exact ⟨p, Scopes.get?_of_own (hsuper p rfl)⟩
  · rw [hscope other c hc]
    exact hsuper p hp
  · rw [hscope other c hc] at heq ⊢
    exact hfresh id c' value hd heq
  · cases hnone
    refine methodTable_all (P := fun c => c.declaration.supers = []) (fun d hd => ?_) hc
    cases parent with
    | none => exact FunctionDecl.supers_of_valid (by decide) (hv d hd)
    | some _ => cases hid

/-- A class is made with the superclass that its clause names, and its methods are at home in it. -/
theorem declareClass_orderly {enclosing : EnclosingClass} {supers : List (Nat × Name)} (h : m.Ready enclosing supers)
    {name : Bytes} (hn : ¬ Reserved name) {parentId : Option ClassId} {parent : Option Name}
    (hid : parentId.isSome = parent.isSome) (hknown : ∀ p, parentId = some p → ∃ info, m.heap.classes[p]? = some info)
    {methods : List FunctionDecl} (hv : ∀ d ∈ methods, d.Valid (.ofParent parent)) (hp : ∀ d ∈ methods, d.Plain) :
    Orderly (declareClass name parentId methods) m fun _ _ => True := by
  cases parentId with
  | none =>
    rw [declareClass_base]
    refine Orderly.get (defineClass_orderly h.neat hn hid hknown hv hp h.stands.serves.exists_scope nofun
      fun id c value _ _ => ?_)
    rw [h.clear]
    nofun
  | some id =>
    have hbindings := single_known superName (show (Value.classRef id).Known m.heap by
      rintro _ ⟨⟩
      exact hknown id rfl)
    rw [declareClass_derived]
    refine Orderly.get ((newScope_orderly h.neat h.stands.serves.exists_scope hbindings).bind
      fun scope m' honward hs => ?_)
    obtain ⟨rfl, hheap⟩ := hs
    refine defineClass_orderly honward.neat hn hid (fun p hp => ?_) hv hp ?_ (fun p hp => ?_) fun id' c value hd heq => ?_
    · obtain ⟨info, hinfo⟩ := hknown p hp
      exact ⟨info, honward.kept.classes _ _ hinfo⟩
    · rw [hheap, Scopes.size_push]
      exact Nat.lt_succ_self _
    · cases hp
      rw [hheap, Scopes.own?_push_next, Table.get?_insert_self]
    · -- A scope that was just made is not one that a method was declared in.
      have hold : m.heap.Declared id' c := by rw [hheap] at hd; exact hd
      exact absurd heq (Nat.ne_of_gt (h.stands.sound.declared_lt hold))

end Eval

/-! ## Evaluation -/

open Eval

/-- Evaluation keeps heaps orderly where it may nest `n` deep. -/
structure Orders (n : Nat) : Prop where
  expr : ∀ {e : Expr} {enclosing : EnclosingClass} {m : Machine}, m.Ready enclosing e.supers → e.Valid enclosing →
    e.Plain → Orderly (evalExpr n e) m Yields
  exprs : ∀ {es : List Expr} {enclosing : EnclosingClass} {m : Machine}, m.Ready enclosing (Expr.allSupers es) →
    Expr.AllValid enclosing es → Expr.AllPlain es → Orderly (evalExprs n es) m fun vs m' => ∀ v ∈ vs, Yields v m'
  call : ∀ {callee : Value} {args : List Value} {m : Machine}, m.Neat → (∀ v ∈ args, Yields v m) →
    Orderly (callValue n callee args) m Yields
  closure : ∀ {c : Closure} {args : List Value} {m : Machine}, m.Neat → c.Sound m.heap.scopes →
    m.heap.Houses c.scope c.declaration.supers → (∀ v ∈ args, Yields v m) → Orderly (callClosure n c args) m Yields
  stmt : ∀ {s : Stmt} {inFunction : Bool} {enclosing : EnclosingClass} {m : Machine}, m.Ready enclosing s.supers →
    s.Valid inFunction enclosing → s.Plain → Orderly (execStmt n s) m Completes
  stmts : ∀ {ss : List Stmt} {inFunction : Bool} {enclosing : EnclosingClass} {m : Machine},
    m.Ready enclosing (Stmt.allSupers ss) → Stmt.AllValid inFunction enclosing ss → Stmt.AllPlain ss →
    Orderly (execStmts n ss) m Completes
  loop : ∀ {condition : Expr} {body : Stmt} {inFunction : Bool} {enclosing : EnclosingClass} {m : Machine},
    m.Ready enclosing (condition.supers ++ body.supers) → condition.Valid enclosing → condition.Plain →
    body.Valid inFunction enclosing → body.Plain → Orderly (execLoop n condition body) m Completes

section

variable {n : Nat} {m : Machine} {enclosing : EnclosingClass} {inFunction : Bool}

theorem Eval.Yields.onward {value : Value} {m' : Machine} (h : Yields value m) (ho : m.Onward m') : Yields value m' :=
  h.kept ho.kept

theorem completes_normal (m : Machine) : Completes .normal m := nofun

theorem evalExpr_orderly (ih : Orders n) {e : Expr} (h : m.Ready enclosing e.supers) (hv : e.Valid enclosing)
    (hp : e.Plain) : Orderly (evalExpr (n + 1) e) m Yields := by
  cases e with
  | literal v => exact .pure h.neat (by cases v <;> nofun)
  | var name => exact lookup_orderly h.neat name
  | assign name e =>
    refine (ih.expr (e := e) h hv hp.2).bind fun value m₁ h₁ hy => ?_
    exact (assign_orderly h₁.neat hp.1 hy).bind fun _ m₂ h₂ _ => .pure h₂.neat (hy.onward h₂)
  | unary op line e =>
    exact (ih.expr (e := e) h hv hp).bind fun value m₁ h₁ _ => applyUnary_orderly h₁.neat op line value
  | binary op line l r =>
    refine (ih.expr h.left hv.1 hp.1).bind fun left m₁ h₁ _ => ?_
    exact (ih.expr (h.right.onward h₁) hv.2 hp.2).bind fun right m₂ h₂ _ =>
      applyBinary_orderly h₂.neat op line left right
  | logical op l r =>
    refine (ih.expr h.left hv.1 hp.1).bind fun left m₁ h₁ hy => ?_
    split
    · exact .pure h₁.neat hy
    · exact ih.expr (h.right.onward h₁) hv.2 hp.2
  | call f args line =>
    refine (ih.expr h.left hv.1 hp.1).bind fun callee m₁ h₁ _ => ?_
    refine (ih.exprs (h.right.onward h₁) hv.2.1 hp.2).bind fun values m₂ h₂ hy => ?_
    refine (checkCall_orderly h₂.neat callee values.length line).bind fun _ m₃ h₃ _ => ?_
    have hy' : ∀ v ∈ values, Yields v m₃ := fun v hmem => (hy v hmem).onward h₃
    exact deeper_orderly (ih.call ⟨h₃.neat.sound, h₃.neat.orderly⟩ hy') fun _ _ hq => hq
  | get o name =>
    refine (ih.expr (e := o) h hv hp).bind fun value m₁ h₁ _ => ?_
    refine (expectObject_orderly h₁.neat _ _ value).bind fun id m₂ h₂ _ => ?_
    exact getProperty_orderly h₂.neat id name
  | set o name e =>
    refine (ih.expr h.left hv.1 hp.1).bind fun value m₁ h₁ _ => ?_
    refine (expectObject_orderly h₁.neat _ _ value).bind fun id m₂ h₂ _ => ?_
    refine (ih.expr ((h.right.onward h₁).onward h₂) hv.2 hp.2).bind fun value' m₃ h₃ hy => ?_
    exact (setField_orderly h₃.neat id name.text hy).bind fun _ m₄ h₄ _ => .pure h₄.neat (hy.onward h₄)
  | this line => exact lookup_orderly h.neat _
  | super line method => exact superMethod_orderly h
  | group e => exact ih.expr (e := e) h hv hp

theorem evalExprs_orderly (ih : Orders n) {es : List Expr} (h : m.Ready enclosing (Expr.allSupers es))
    (hv : Expr.AllValid enclosing es) (hp : Expr.AllPlain es) :
    Orderly (evalExprs (n + 1) es) m fun vs m' => ∀ v ∈ vs, Yields v m' := by
  cases es with
  | nil => exact .pure h.neat nofun
  | cons e es =>
    refine (ih.expr h.left hv.1 hp.1).bind fun value m₁ h₁ hy => ?_
    refine (ih.exprs (h.right.onward h₁) hv.2 hp.2).bind fun values m₂ h₂ hys => .pure h₂.neat fun v hmem => ?_
    rcases List.mem_cons.mp hmem with rfl | hmem
    · exact hy.onward h₂
    · exact hys v hmem

theorem callValue_orderly (ih : Orders n) {callee : Value} {args : List Value} (h : m.Neat)
    (ha : ∀ v ∈ args, Yields v m) : Orderly (callValue (n + 1) callee args) m Yields := by
  cases callee with
  | function id =>
    refine Orderly.get ?_
    split
    · rename_i c hc
      exact ih.closure h (h.sound.functions id c hc) (h.orderly.functions id c hc) ha
    · exact .pure h (yields_nil m)
  | clock =>
    exact .ok rfl ⟨⟨h.sound, .refl _, rfl⟩, h.orderly, .refl _⟩ (yields_number _ _)
  | classRef id =>
    refine (newObject_orderly h id).bind fun object m₁ h₁ hobject => Orderly.get ?_
    split
    · rename_i method hmethod
      obtain ⟨home, hdescends, hdeclared⟩ := Heap.methodWithin?_declared hmethod
      refine (bindReceiver_orderly h₁.neat hdeclared hobject hdescends).bind fun c m₂ h₂ hc => ?_
      refine (ih.closure h₂.neat hc.1 hc.2 fun v hmem => ((ha v hmem).onward h₁).onward h₂).bind fun _ m₃ h₃ _ => ?_
      exact .pure h₃.neat nofun
    · exact .pure h₁.neat nofun
  | _ => exact .pure h (yields_nil m)

theorem arguments_known {args : List Value} (ha : ∀ v ∈ args, Yields v m) (params : List Name) (name : Bytes)
    (value : Value) (h : (Scopes.bindAll Table.empty params args).get? name = some value) : value.Known m.heap :=
  Scopes.bindAll_all ha params (fun _ _ hnone => by cases hnone) h

/-- A body is run in a scope of its own, with the parameters in it. -/
theorem body_ready (h : m.Neat) {c : Closure} (hserves : m.heap.scopes.Serves c.scope enclosing) (hp : c.declaration.Plain)
    (hh : m.heap.Houses c.scope c.declaration.supers) {args : List Value} (ha : ∀ v ∈ args, Yields v m) {scope : ScopeId}
    {m' : Machine} (hscope : newScope c.scope (Scopes.bindAll Table.empty c.declaration.parameters args) m = (.ok scope, m')) :
    Machine.Ready { m' with scope } enclosing c.declaration.supers := by
  have hreserved : ∀ name, Reserved name →
      (Scopes.bindAll Table.empty c.declaration.parameters args).get? name = none := by
    intro name hn
    obtain ⟨⟨_, params, _⟩, _, _⟩ := c
    exact Scopes.get?_bindAll hn params args _ hp.2.1
  obtain ⟨honward, rfl, hheap⟩ := (newScope_orderly h hserves.exists_scope (arguments_known ha _)).onward hscope
  refine ⟨body_stands h.sound hserves hp hscope, honward.orderly, ?_, ?_⟩
  · show m'.heap.scopes.own? m.heap.scopes.next superName = none
    rw [hheap, Scopes.own?_push_next, hreserved _ (.inr rfl)]
  · show m'.heap.Houses m.heap.scopes.next c.declaration.supers
    rw [hheap]
    exact hh.push h.sound.ordered hserves.exists_scope hreserved

theorem emptyScope_orderly {supers : List (Nat × Name)} (h : m.Ready enclosing supers) :
    Orderly (newScope m.scope Table.empty) m fun id m' =>
      id = m.heap.scopes.next ∧ m'.heap = { m.heap with scopes := m.heap.scopes.push ⟨some m.scope, Table.empty⟩ } :=
  newScope_orderly h.neat h.stands.serves.exists_scope fun _ _ hnone => by cases hnone

theorem block_ready {supers : List (Nat × Name)} (h : m.Ready enclosing supers) {scope : ScopeId} {m' : Machine}
    (hscope : newScope m.scope Table.empty m = (.ok scope, m')) : Machine.Ready { m' with scope } enclosing supers := by
  obtain ⟨honward, rfl, hheap⟩ := (emptyScope_orderly h).onward hscope
  refine ⟨block_stands h.stands hscope, honward.orderly, ?_, ?_⟩
  · show m'.heap.scopes.own? m.heap.scopes.next superName = none
    rw [hheap, Scopes.own?_push_next]
    rfl
  · show m'.heap.Houses m.heap.scopes.next supers
    rw [hheap]
    exact h.houses.push h.stands.sound.ordered h.stands.serves.exists_scope fun _ _ => rfl

/-- A body is run where its function was declared, so its home is the function's. -/
theorem callClosure_orderly (ih : Orders n) {c : Closure} {args : List Value} (h : m.Neat) (hc : c.Sound m.heap.scopes)
    (hh : m.heap.Houses c.scope c.declaration.supers) (ha : ∀ v ∈ args, Yields v m) :
    Orderly (callClosure (n + 1) c args) m Yields := by
  obtain ⟨enclosing, hserves, hv, hp⟩ := hc
  refine (newScope_orderly h hserves.exists_scope (arguments_known ha _)).then fun scope m₁ hscope h₁ _ => ?_
  have hbody := body_ready h hserves hp hh ha hscope
  obtain ⟨⟨name, params, body⟩, outer, isInitializer⟩ := c
  refine (inScope_orderly (ih.stmts hbody hv.2 hp.2.2) fun _ _ hq => hq).bind fun completion m₂ h₂ hc => ?_
  exact callResult_orderly h₂.neat _ hc

theorem execStmt_orderly (ih : Orders n) {s : Stmt} (h : m.Ready enclosing s.supers) (hv : s.Valid inFunction enclosing)
    (hp : s.Plain) : Orderly (execStmt (n + 1) s) m Completes := by
  cases s with
  | expression e => exact (ih.expr (e := e) h hv hp).bind fun _ m₁ h₁ _ => .pure h₁.neat (completes_normal _)
  | print e =>
    refine (ih.expr (e := e) h hv hp).bind fun value m₁ h₁ _ => ?_
    have hprint : Orderly (print value) m₁ fun _ _ => True :=
      .ok rfl ⟨⟨h₁.neat.sound, .refl _, rfl⟩, h₁.orderly, .refl _⟩ trivial
    exact hprint.bind fun _ m₂ h₂ _ => .pure h₂.neat (completes_normal _)
  | var name init =>
    have hdefine : ∀ (value : Value) (m₁ : Machine), m₁.Neat → Yields value m₁ →
        Orderly (define name.text value >>= fun _ => pure Completion.normal) m₁ Completes := fun value m₁ h₁ hy =>
      (define_orderly h₁ hp.1 hy).bind fun _ m₂ h₂ _ => .pure h₂.neat (completes_normal _)
    cases init with
    | none => exact hdefine .nil m h.neat (yields_nil m)
    | some e => exact (ih.expr (e := e) h (hv e rfl) (hp.2 e rfl)).bind fun value m₁ h₁ hy => hdefine value m₁ h₁.neat hy
  | block body =>
    refine Orderly.get ((emptyScope_orderly h).then fun scope m₁ hscope h₁ _ => ?_)
    exact inScope_orderly (ih.stmts (block_ready h hscope) hv hp) fun _ _ hq => hq
  | ifElse c t e =>
    cases e with
    | none =>
      refine (ih.expr h.left hv.1 hp.1).bind fun value m₁ h₁ _ => ?_
      split
      · exact ih.stmt (h.right.onward h₁) hv.2 hp.2
      · exact .pure h₁.neat (completes_normal _)
    | some e =>
      refine (ih.expr h.left hv.1 hp.1).bind fun value m₁ h₁ _ => ?_
      split
      · exact ih.stmt (h.right.left.onward h₁) hv.2.1 hp.2.1
      · exact ih.stmt (h.right.right.onward h₁) hv.2.2 hp.2.2
  | loop c b => exact ih.loop h hv.1 hp.1 hv.2 hp.2
  | function d =>
    obtain ⟨name, params, body⟩ := d
    have hc : Closure.Sound m.heap.scopes ⟨.mk name params body, m.scope, false⟩ := ⟨enclosing, h.stands.serves, hv, hp⟩
    refine Orderly.get ((newFunction_orderly h.neat hc h.houses).bind fun value m₁ h₁ hy => ?_)
    exact (define_orderly h₁.neat hp.1 hy).bind fun _ m₂ h₂ _ => .pure h₂.neat (completes_normal _)
  | ret v =>
    cases v with
    | none =>
      refine .pure h.neat fun value heq => ?_
      cases heq
      exact yields_nil m
    | some e =>
      refine (ih.expr (e := e) h (hv.2 e rfl) (hp e rfl)).bind fun value m₁ h₁ hy => .pure h₁.neat fun value' heq => ?_
      cases heq
      exact hy
  | classDecl name parent methods =>
    refine (superclass_orderly h.neat parent).bind fun parentId m₁ h₁ hid => ?_
    refine (declareClass_orderly (h.onward h₁) hp.1 hid.1 hid.2 ?_ ?_).bind fun _ m₂ h₂ _ =>
      .pure h₂.neat (completes_normal _)
    · exact FunctionDecl.allValid_iff.mp hv.2
    · exact FunctionDecl.allPlain_iff.mp hp.2.2

theorem execStmts_orderly (ih : Orders n) {ss : List Stmt} (h : m.Ready enclosing (Stmt.allSupers ss))
    (hv : Stmt.AllValid inFunction enclosing ss) (hp : Stmt.AllPlain ss) :
    Orderly (execStmts (n + 1) ss) m Completes := by
  cases ss with
  | nil => exact .pure h.neat (completes_normal _)
  | cons s ss =>
    refine (ih.stmt h.left hv.1 hp.1).bind fun completion m₁ h₁ hc => ?_
    cases completion with
    | normal => exact ih.stmts (h.right.onward h₁) hv.2 hp.2
    | returned value => exact .pure h₁.neat hc

theorem execLoop_orderly (ih : Orders n) {condition : Expr} {body : Stmt}
    (h : m.Ready enclosing (condition.supers ++ body.supers)) (hc : condition.Valid enclosing) (hc' : condition.Plain)
    (hb : body.Valid inFunction enclosing) (hb' : body.Plain) : Orderly (execLoop (n + 1) condition body) m Completes := by
  refine (ih.expr h.left hc hc').bind fun value m₁ h₁ _ => ?_
  split
  · refine (ih.stmt (h.right.onward h₁) hb hb').bind fun completion m₂ h₂ hcompletion => ?_
    cases completion with
    | normal => exact ih.loop ((h.onward h₁).onward h₂) hc hc' hb hb'
    | returned value => exact .pure h₂.neat hcompletion
  · exact .pure h₁.neat (completes_normal _)

/-- However deep it nests, evaluation keeps heaps orderly. -/
theorem orders (n : Nat) : Orders n := by
  induction n with
  | zero =>
    exact ⟨fun h _ _ => .exhausted h.neat, fun h _ _ => .exhausted h.neat, fun h _ => .exhausted h,
      fun h _ _ _ => .exhausted h, fun h _ _ => .exhausted h.neat, fun h _ _ => .exhausted h.neat,
      fun h _ _ _ _ => .exhausted h.neat⟩
  | succ n ih =>
    exact ⟨evalExpr_orderly ih, evalExprs_orderly ih, callValue_orderly ih, callClosure_orderly ih, execStmt_orderly ih,
      execStmts_orderly ih, execLoop_orderly ih⟩

end

end Lox
