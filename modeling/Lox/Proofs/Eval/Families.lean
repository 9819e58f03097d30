/-
  Lox.Proofs.Eval.Families — classes, their superclasses, and the code that speaks of them.
  Code that speaks of a superclass stands in a method of some class, its home. In an orderly
  heap every such piece of code is in a scope that knows its home: the receiver there is of
  the home or of a class below it, and the superclass there is the one that the home was
  made with. A class is younger than its superclass, and stays as it was made.
-/

import Lox.Proofs.Eval.Safety

namespace Lox

/-! ## Speaking of a superclass -/

mutual

def Expr.supers : Expr → List (Nat × Name)
  | .literal _ => []
  | .var _ => []
  | .assign _ e => e.supers
  | .unary _ _ e => e.supers
  | .binary _ _ l r => l.supers ++ r.supers
  | .logical _ l r => l.supers ++ r.supers
  | .call f args _ => f.supers ++ Expr.allSupers args
  | .get o _ => o.supers
  | .set o _ e => o.supers ++ e.supers
  | .this _ => []
  | .super line method => [(line, method)]
  | .group e => e.supers

def Expr.allSupers : List Expr → List (Nat × Name)
  | [] => []
  | e :: es => e.supers ++ Expr.allSupers es

end

mutual

/-- The places where a statement speaks of the superclass of the class that it stands in, in
functions too. What a class inside of it speaks of is the superclass of that class. -/
def Stmt.supers : Stmt → List (Nat × Name)
  | .expression e => e.supers
  | .print e => e.supers
  | .var _ none => []
  | .var _ (some e) => e.supers
  | .block body => Stmt.allSupers body
  | .ifElse c t none => c.supers ++ t.supers
  | .ifElse c t (some e) => c.supers ++ (t.supers ++ e.supers)
  | .loop c b => c.supers ++ b.supers
  | .function d => d.supers
  | .ret none => []
  | .ret (some e) => e.supers
  | .classDecl _ _ _ => []

def FunctionDecl.supers : FunctionDecl → List (Nat × Name)
  | .mk _ _ body => Stmt.allSupers body

def Stmt.allSupers : List Stmt → List (Nat × Name)
  | [] => []
  | s :: ss => s.supers ++ Stmt.allSupers ss

end

section

variable {enclosing : EnclosingClass} {inFunction : Bool}

mutual

/-- Valid code outside of a subclass does not speak of a superclass. -/
theorem Expr.supers_of_valid (hc : enclosing ≠ .derived) : ∀ {e : Expr}, e.Valid enclosing → e.supers = []
  | .literal _, _ => rfl
  | .var _, _ => rfl
  | .assign _ e, h => Expr.supers_of_valid hc (e := e) h
  | .unary _ _ e, h => Expr.supers_of_valid hc (e := e) h
  | .binary _ _ _ _, h => List.append_eq_nil_iff.mpr ⟨Expr.supers_of_valid hc h.1, Expr.supers_of_valid hc h.2⟩
  | .logical _ _ _, h => List.append_eq_nil_iff.mpr ⟨Expr.supers_of_valid hc h.1, Expr.supers_of_valid hc h.2⟩
  | .call _ _ _, h => List.append_eq_nil_iff.mpr ⟨Expr.supers_of_valid hc h.1, Expr.allSupers_of_valid hc h.2.1⟩
  | .get e _, h => Expr.supers_of_valid hc (e := e) h
  | .set _ _ _, h => List.append_eq_nil_iff.mpr ⟨Expr.supers_of_valid hc h.1, Expr.supers_of_valid hc h.2⟩
  | .this _, _ => rfl
  | .super _ _, h => absurd h hc
  | .group e, h => Expr.supers_of_valid hc (e := e) h

theorem Expr.allSupers_of_valid (hc : enclosing ≠ .derived) : ∀ {es : List Expr}, Expr.AllValid enclosing es →
    Expr.allSupers es = []
  | [], _ => rfl
  | _ :: _, h => List.append_eq_nil_iff.mpr ⟨Expr.supers_of_valid hc h.1, Expr.allSupers_of_valid hc h.2⟩

end

mutual

/-- Outside of derived classes nothing is said of a superclass. -/
theorem Stmt.supers_of_valid (hc : enclosing ≠ .derived) :
    ∀ {s : Stmt} {inFunction : Bool}, s.Valid inFunction enclosing → s.supers = []
  | .expression _, _, h => Expr.supers_of_valid hc h
  | .print _, _, h => Expr.supers_of_valid hc h
  | .var _ none, _, _ => rfl
  | .var _ (some e), _, h => Expr.supers_of_valid hc (h e rfl)
  | .block _, _, h => Stmt.allSupers_of_valid hc h
  | .ifElse _ _ none, _, h => List.append_eq_nil_iff.mpr ⟨Expr.supers_of_valid hc h.1, Stmt.supers_of_valid hc h.2⟩
  | .ifElse _ _ (some _), _, h => List.append_eq_nil_iff.mpr
      ⟨Expr.supers_of_valid hc h.1,
        List.append_eq_nil_iff.mpr ⟨Stmt.supers_of_valid hc h.2.1, Stmt.supers_of_valid hc h.2.2⟩⟩
  | .loop _ _, _, h => List.append_eq_nil_iff.mpr ⟨Expr.supers_of_valid hc h.1, Stmt.supers_of_valid hc h.2⟩
  | .function _, _, h => FunctionDecl.supers_of_valid hc h
  | .ret none, _, _ => rfl
  | .ret (some e), _, h => Expr.supers_of_valid hc (h.2 e rfl)
  | .classDecl _ _ _, _, _ => rfl

theorem FunctionDecl.supers_of_valid (hc : enclosing ≠ .derived) : ∀ {d : FunctionDecl}, d.Valid enclosing → d.supers = []
  | .mk _ _ _, h => Stmt.allSupers_of_valid hc h.2

theorem Stmt.allSupers_of_valid (hc : enclosing ≠ .derived) :
    ∀ {ss : List Stmt} {inFunction : Bool}, Stmt.AllValid inFunction enclosing ss → Stmt.allSupers ss = []
  | [], _, _ => rfl
  | _ :: _, _, h => List.append_eq_nil_iff.mpr ⟨Stmt.supers_of_valid hc h.1, Stmt.allSupers_of_valid hc h.2⟩

end

end

/-! ## Homes -/

namespace Heap

inductive Descends (h : Heap) : ClassId → ClassId → Prop
  | refl (id : ClassId) : Descends h id id
  | up {id parent ancestor : ClassId} {info : ClassInfo} : h.classes[id]? = some info →
      info.superclass = some parent → Descends h parent ancestor → Descends h id ancestor

def Declared (h : Heap) (id : ClassId) (c : Closure) : Prop :=
  ∃ info name, h.classes[id]? = some info ∧ info.methods.get? name = some c

/-- Code in the scope lies in a method of the class: on the way outwards, the first scope
that binds a receiver stands in the scope that the method was declared in. -/
inductive LiesIn (h : Heap) (home : ClassId) : ScopeId → Prop
  | method {id : ScopeId} {scope : Scope} {receiver : Value} {c : Closure} : h.scopes.all[id]? = some scope →
      scope.bindings.get? thisName = some receiver → scope.enclosing = some c.scope → h.Declared home c →
      LiesIn h home id
  | inner {id outer : ScopeId} {scope : Scope} : h.scopes.all[id]? = some scope →
      scope.bindings.get? thisName = none → scope.enclosing = some outer → LiesIn h home outer → LiesIn h home id

/-- The scope knows a receiver of the class, and the superclass that the class was made with. -/
structure Home (h : Heap) (scope : ScopeId) (home : ClassId) : Prop where
  inside : h.LiesIn home scope
  superclass : ∃ info parent, h.classes[home]? = some info ∧ info.superclass = some parent ∧
    h.scopes.get? scope superName = some (.classRef parent)
  receiver : ∃ id object, h.scopes.get? scope thisName = some (.object id) ∧ h.objects[id]? = some object ∧
    h.Descends object.classId home

def Speaks (h : Heap) (home : ClassId) (place : Nat × Name) : Prop :=
  ∃ c, h.Declared home c ∧ place ∈ c.declaration.supers

/-- The scope is fit for code that speaks of the superclass in these places, if in any. -/
def Houses (h : Heap) (scope : ScopeId) (supers : List (Nat × Name)) : Prop :=
  supers ≠ [] → ∃ home, h.Home scope home ∧ ∀ place ∈ supers, h.Speaks home place

/-- Nothing that counts here is lost or changed: classes, the classes of objects, enclosing
scopes, receivers and superclasses. -/
structure Kept (h h' : Heap) : Prop where
  scopes : h.scopes.Extends h'.scopes
  classes : ∀ (id : Nat) (info : ClassInfo), h.classes[id]? = some info → h'.classes[id]? = some info
  objects : ∀ (id : Nat) (object : Object), h.objects[id]? = some object →
    ∃ object', h'.objects[id]? = some object' ∧ object'.classId = object.classId

variable {h h' h'' : Heap}

theorem Kept.refl (h : Heap) : h.Kept h := ⟨.refl _, fun _ _ hi => hi, fun _ object ho => ⟨object, ho, rfl⟩⟩

theorem Kept.trans (hk : h.Kept h') (hk' : h'.Kept h'') : h.Kept h'' := by
  refine ⟨hk.scopes.trans hk'.scopes, fun id info hi => hk'.classes id info (hk.classes id info hi), fun id object ho => ?_⟩
  obtain ⟨object', ho', hclass⟩ := hk.objects id object ho
  obtain ⟨object'', ho'', hclass'⟩ := hk'.objects id object' ho'
  exact ⟨object'', ho'', hclass'.trans hclass⟩

theorem Descends.trans {a b c : ClassId} (hab : h.Descends a b) (hbc : h.Descends b c) : h.Descends a c := by
  induction hab with
  | refl => exact hbc
  | up hi hs _ ih => exact .up hi hs (ih hbc)

section

variable {home : ClassId} {scope : ScopeId}

theorem Descends.kept {a b : ClassId} (hd : h.Descends a b) (hk : h.Kept h') : h'.Descends a b := by
  induction hd with
  | refl id => exact .refl id
  | up hi hs _ ih => exact .up (hk.classes _ _ hi) hs ih

theorem Declared.kept {c : Closure} (hd : h.Declared home c) (hk : h.Kept h') : h'.Declared home c := by
  obtain ⟨info, name, hi, hc⟩ := hd
  exact ⟨info, name, hk.classes _ _ hi, hc⟩

/-- Code stays in the method that it lies in. -/
theorem LiesIn.kept (hl : h.LiesIn home scope) (hk : h.Kept h') : h'.LiesIn home scope := by
  induction hl with
  | method hscope hthis henc hc =>
    obtain ⟨scope', hscope', henc', hget⟩ := hk.scopes _ _ hscope
    exact .method hscope' ((hget _ (.inl rfl)).trans hthis) (henc'.trans henc) (hc.kept hk)
  | inner hscope hthis henc _ ih =>
    obtain ⟨scope', hscope', henc', hget⟩ := hk.scopes _ _ hscope
    exact .inner hscope' ((hget _ (.inl rfl)).trans hthis) (henc'.trans henc) ih

theorem Speaks.kept {place : Nat × Name} (hp : h.Speaks home place) (hk : h.Kept h') : h'.Speaks home place := by
  obtain ⟨c, hc, hmem⟩ := hp
  exact ⟨c, hc.kept hk, hmem⟩

/-- The home of code stays its home. -/
theorem Home.kept (hh : h.Home scope home) (hs : h.scopes.Ordered) (hk : h.Kept h') : h'.Home scope home := by
  obtain ⟨hinside, ⟨info, parent, hinfo, hparent, hsuper⟩, id, object, hthis, hobject, hdescends⟩ := hh
  obtain ⟨object', hobject', hclass⟩ := hk.objects id object hobject
  refine ⟨hinside.kept hk, ⟨info, parent, hk.classes _ _ hinfo, hparent, hk.scopes.get? hs (.inr rfl) hsuper⟩, id, object',
    hk.scopes.get? hs (.inl rfl) hthis, hobject', ?_⟩
  rw [hclass]
  exact hdescends.kept hk

/-- A scope stays fit for the code that it was fit for. -/
theorem Houses.kept {supers : List (Nat × Name)} (hh : h.Houses scope supers) (hs : h.scopes.Ordered) (hk : h.Kept h') :
    h'.Houses scope supers := by
  intro hne
  obtain ⟨home, hhome, hspeaks⟩ := hh hne
  exact ⟨home, hhome.kept hs hk, fun place hp => (hspeaks place hp).kept hk⟩

theorem Houses.part {supers supers' : List (Nat × Name)} (hh : h.Houses scope supers)
    (hsub : ∀ place ∈ supers', place ∈ supers) : h.Houses scope supers' := by
  intro hne
  obtain ⟨place, hp⟩ := List.exists_mem_of_ne_nil _ hne
  obtain ⟨home, hhome, hspeaks⟩ := hh (List.ne_nil_of_mem (hsub place hp))
  exact ⟨home, hhome, fun place hp => hspeaks place (hsub place hp)⟩

end

/-- A scope inside of another is fit for the same code if it binds no reserved word. -/
theorem Houses.push {outer : ScopeId} {supers : List (Nat × Name)} (hh : h.Houses outer supers) (hs : h.scopes.Ordered)
    (ho : outer < h.scopes.all.size) {bindings : Table Value} (hb : ∀ name, Reserved name → bindings.get? name = none) :
    Houses { h with scopes := h.scopes.push ⟨some outer, bindings⟩ } h.scopes.next supers := by
  intro hne
  have hkept : h.Kept { h with scopes := h.scopes.push ⟨some outer, bindings⟩ } :=
    ⟨Scopes.push_extends _ _, fun _ _ hi => hi, fun _ object ho => ⟨object, ho, rfl⟩⟩
  obtain ⟨home, ⟨hinside, ⟨info, parent, hinfo, hparent, hsuper⟩, id, object, hthis, hobject, hdescends⟩, hspeaks⟩ := hh hne
  refine ⟨home, ⟨?_, ⟨info, parent, hinfo, hparent, ?_⟩, id, object, ?_, hobject, hdescends.kept hkept⟩,
    fun place hp => (hspeaks place hp).kept hkept⟩
  · exact .inner (Scopes.getElem?_push_next _ _) (hb _ (.inl rfl)) rfl (hinside.kept hkept)
  · exact Scopes.get?_push_outer hs ho bindings (hb _ (.inr rfl)) (.inr rfl) hsuper
  · exact Scopes.get?_push_outer hs ho bindings (hb _ (.inl rfl)) (.inl rfl) hthis

/-- The class that a method was found in is the one asked for or above it. -/
theorem methodWithin?_declared {name : Bytes} {bound : Nat} {id : ClassId} {c : Closure}
    (hc : h.methodWithin? name bound id = some c) : ∃ home, h.Descends id home ∧ h.Declared home c := by
  induction bound generalizing id with
  | zero => cases hc
  | succ bound ih =>
    unfold Heap.methodWithin? at hc
    split at hc
    · cases hc
    · rename_i info hinfo
      split at hc
      · rename_i method hmethod
        cases hc
        exact ⟨id, .refl id, info, name, hinfo, hmethod⟩
      · split at hc
        · cases hc
        · rename_i parent hparent
          obtain ⟨home, hdescends, hdeclared⟩ := ih hc
          exact ⟨home, .up hinfo hparent hdescends, hdeclared⟩

end Heap

/-! ## What scopes bind themselves -/

namespace Scopes

variable {s s' : Scopes} {id : Nat} {name : Bytes} {value : Value}

theorem own?_eq_some : s.own? id name = some value ↔ ∃ scope, s.all[id]? = some scope ∧ scope.bindings.get? name = some value :=
  Option.bind_eq_some_iff

theorem get?_of_own (h : s.own? id name = some value) : s.get? id name = some value := by
  obtain ⟨scope, hscope, hget⟩ := own?_eq_some.mp h
  have hcontains : scope.bindings.contains name = true := by simp [Table.contains, hget]
  simp only [get?, holder?, holderWithin?_succ s name id hscope, hcontains, if_true, Option.bind_some, h]

theorem own_of_get? (h : s.get? id name = some value) : ∃ holder, s.own? holder name = some value := by
  obtain ⟨holder, -, hown⟩ := Option.bind_eq_some_iff.mp h
  exact ⟨holder, hown⟩

theorem Extends.own?_eq (he : s.Extends s') (hn : Reserved name) (hid : id < s.all.size) : s'.own? id name = s.own? id name := by
  have hscope : s.all[id]? = some s.all[id] := Array.getElem?_eq_getElem hid
  obtain ⟨scope', hscope', -, hget⟩ := he id _ hscope
  simp only [own?, hscope, hscope', Option.bind_some, hget name hn]

theorem own?_push_next (s : Scopes) (scope : Scope) (name : Bytes) :
    (s.push scope).own? s.next name = scope.bindings.get? name := by
  simp only [own?, getElem?_push_next, Option.bind_some]

/-- A new scope adds its own bindings and no others. -/
theorem own?_push {outer : Option ScopeId} {bindings : Table Value}
    (h : (s.push ⟨outer, bindings⟩).own? id name = some value) :
    s.own? id name = some value ∨ id = s.next ∧ bindings.get? name = some value := by
  obtain ⟨scope, hscope, hget⟩ := own?_eq_some.mp h
  rcases push_cases hscope with ⟨rfl, rfl⟩ | hold
  · exact .inr ⟨rfl, hget⟩
  · exact .inl (own?_eq_some.mpr ⟨scope, hold, hget⟩)

theorem own?_define {holder : Nat} {other : Bytes} {value' : Value}
    (h : (s.define holder other value').own? id name = some value) : s.own? id name = some value ∨ value = value' := by
  rw [own?_define_eq] at h
  split at h
  · obtain ⟨_, -, rfl⟩ := Option.map_eq_some_iff.mp h
    exact .inr rfl
  · exact .inl h

/-- What parameters are bound to was given before or is an argument. -/
theorem bindAll_all {P : Value → Prop} {args : List Value} (ha : ∀ v ∈ args, P v) (params : List Name)
    {bindings : Table Value} (hb : ∀ name value, bindings.get? name = some value → P value) {name : Bytes} {value : Value}
    (h : (bindAll bindings params args).get? name = some value) : P value := by
  induction params generalizing args bindings with
  | nil => exact hb name value h
  | cons p params ih =>
    cases args with
    | nil => exact hb name value h
    | cons a args =>
      refine ih (fun v hv => ha v (List.mem_cons_of_mem a hv)) (fun other v hget => ?_) h
      rw [Table.get?_insert] at hget
      split at hget
      · cases hget
        exact ha a List.mem_cons_self
      · exact hb other v hget

end Scopes

/-! ## Orderly heaps -/

def Value.Known (h : Heap) (v : Value) : Prop := ∀ id, v = .classRef id → ∃ info, h.classes[id]? = some info

theorem Value.Known.kept {h h' : Heap} {v : Value} (hv : v.Known h) (hk : h.Kept h') : v.Known h' := by
  intro id heq
  obtain ⟨info, hinfo⟩ := hv id heq
  exact ⟨info, hk.classes _ _ hinfo⟩

namespace Heap

structure Orderly (h : Heap) : Prop where
  bound : ∀ (id : Nat) (name : Bytes) (value : Value), h.scopes.own? id name = some value → value.Known h
  fields : ∀ (id : Nat) (object : Object) (name : Bytes) (value : Value), h.objects[id]? = some object →
    object.fields.get? name = some value → value.Known h
  older : ∀ (id : Nat) (info : ClassInfo) (parent : ClassId), h.classes[id]? = some info →
    info.superclass = some parent → parent < id
  /-- A class with a superclass has a scope for its methods, and only for them, that knows the superclass. -/
  derived : ∀ (id : Nat) (info : ClassInfo) (name : Bytes) (c : Closure) (parent : ClassId), h.classes[id]? = some info →
    info.methods.get? name = some c → info.superclass = some parent →
    h.scopes.own? c.scope superName = some (.classRef parent)
  apart : ∀ (id id' : Nat) (c c' : Closure) (value : Value), h.Declared id c → h.Declared id' c' → c.scope = c'.scope →
    h.scopes.own? c.scope superName = some value → id = id'
  /-- The methods of a class without one do not speak of it. -/
  base : ∀ (id : Nat) (info : ClassInfo) (name : Bytes) (c : Closure), h.classes[id]? = some info →
    info.methods.get? name = some c → info.superclass = none → c.declaration.supers = []
  functions : ∀ (id : Nat) (c : Closure), h.functions[id]? = some c → h.Houses c.scope c.declaration.supers

variable {h : Heap}

theorem Sound.declared_lt (hs : h.Sound) {id : ClassId} {c : Closure} (hc : h.Declared id c) : c.scope < h.scopes.all.size := by
  obtain ⟨info, name, hinfo, hmethod⟩ := hc
  obtain ⟨_, hlt, -⟩ := hs.methods id info name c hinfo hmethod
  exact hlt

/-- Scopes may be added and changed as long as the reserved words stay, and classes are known. -/
theorem Orderly.withScopes (ho : h.Orderly) (hs : h.Sound) {scopes : Scopes} (he : h.scopes.Extends scopes)
    (hv : ∀ id name value, scopes.own? id name = some value → h.scopes.own? id name = some value ∨ value.Known h) :
    Orderly { h with scopes } := by
  have hkept : h.Kept { h with scopes } := ⟨he, fun _ _ hi => hi, fun _ object ho => ⟨object, ho, rfl⟩⟩
  refine ⟨fun id name value hown => ?_, ho.fields, ho.older, fun id info name c parent hinfo hc hparent => ?_,
    fun id id' c c' value hc hc' hscope hown => ?_, ho.base, fun id c hc => (ho.functions id c hc).kept hs.ordered hkept⟩
  · rcases hv id name value hown with hold | hknown
    · exact ho.bound id name value hold
    · exact hknown
  · show scopes.own? c.scope superName = _
    rw [he.own?_eq (.inr rfl) (hs.declared_lt ⟨info, name, hinfo, hc⟩)]
    exact ho.derived id info name c parent hinfo hc hparent
  · have hown' : scopes.own? c.scope superName = some value := hown
    rw [he.own?_eq (.inr rfl) (hs.declared_lt hc)] at hown'
    exact ho.apart id id' c c' value hc hc' hscope hown'

/-- So may objects, as long as each keeps its class. -/
theorem Orderly.withObjects (ho : h.Orderly) (hs : h.Sound) {objects : Array Object}
    (hk : ∀ (id : Nat) (object : Object), h.objects[id]? = some object →
      ∃ object', objects[id]? = some object' ∧ object'.classId = object.classId)
    (hv : ∀ (id : Nat) (object : Object) (name : Bytes) (value : Value), objects[id]? = some object →
      object.fields.get? name = some value → value.Known h) : Orderly { h with objects } := by
  have hkept : h.Kept { h with objects } := ⟨.refl _, fun _ _ hi => hi, hk⟩
  exact ⟨ho.bound, hv, ho.older, ho.derived, ho.apart, ho.base, fun id c hc => (ho.functions id c hc).kept hs.ordered hkept⟩

/-- In an orderly heap a name never stands for a class that is not there. -/
theorem Orderly.known (ho : h.Orderly) {scope : ScopeId} {name : Bytes} {value : Value}
    (hget : h.scopes.get? scope name = some value) : value.Known h := by
  obtain ⟨holder, hown⟩ := Scopes.own_of_get? hget
  exact ho.bound holder name value hown

/-- A class that is made of methods in a scope of their own, or without a superclass. -/
theorem Orderly.withClass (ho : h.Orderly) (hs : h.Sound) {info : ClassInfo}
    (hparent : ∀ parent, info.superclass = some parent → ∃ info', h.classes[parent]? = some info')
    (hderived : ∀ name c parent, info.methods.get? name = some c → info.superclass = some parent →
      h.scopes.own? c.scope superName = some (.classRef parent))
    (hfresh : ∀ name c id c' value, info.methods.get? name = some c → h.Declared id c' → c.scope = c'.scope →
      h.scopes.own? c.scope superName ≠ some value)
    (hbase : ∀ name c, info.methods.get? name = some c → info.superclass = none → c.declaration.supers = []) :
    Orderly { h with classes := h.classes.push info } := by
  have hkept : h.Kept { h with classes := h.classes.push info } :=
    ⟨.refl _, fun _ _ => push_keeps info, fun _ object hobject => ⟨object, hobject, rfl⟩⟩
  refine ⟨fun id name value hown => (ho.bound id name value hown).kept hkept,
    fun id object name value hobject hget => (ho.fields id object name value hobject hget).kept hkept,
    fun id i parent hi hp => ?_, fun id i name c parent hi hc hp => ?_, ?_, fun id i name c hi hc hnone => ?_,
    fun id c hc => (ho.functions id c hc).kept hs.ordered hkept⟩
  · rcases push_cases hi with ⟨rfl, rfl⟩ | hold
    · obtain ⟨info', hinfo'⟩ := hparent parent hp
      exact (Array.getElem?_eq_some_iff.mp hinfo').1
    · exact ho.older id i parent hold hp
  · rcases push_cases hi with ⟨rfl, rfl⟩ | hold
    · exact hderived name c parent hc hp
    · exact ho.derived id i name c parent hold hc hp
  · rintro id id' c c' value ⟨i, name, hi, hc⟩ ⟨i', name', hi', hc'⟩ hscope hown
    rcases push_cases hi with ⟨rfl, rfl⟩ | hold
    · rcases push_cases hi' with ⟨rfl, -⟩ | hold'
      · rfl
      · exact absurd hown (hfresh name c id' c' value hc ⟨i', name', hold', hc'⟩ hscope)
    · rcases push_cases hi' with ⟨rfl, rfl⟩ | hold'
      · have hown' : h.scopes.own? c'.scope superName = some value := hscope ▸ hown
        exact absurd hown' (hfresh name' c' id c value hc' ⟨i, name, hold, hc⟩ hscope.symm)
      · exact ho.apart id id' c c' value ⟨i, name, hold, hc⟩ ⟨i', name', hold', hc'⟩ hscope hown
  · rcases push_cases hi with ⟨rfl, rfl⟩ | hold
    · exact hbase name c hc hnone
    · exact ho.base id i name c hold hc hnone

/-- Code lies in no two classes, if one of them has a superclass. -/
theorem Orderly.home_unique (ho : h.Orderly) {scope : ScopeId} {home home' : ClassId} (hl : h.LiesIn home scope)
    (hl' : h.LiesIn home' scope) {info : ClassInfo} {parent : ClassId} (hinfo : h.classes[home]? = some info)
    (hparent : info.superclass = some parent) : home' = home := by
  induction hl with
  | method hscope hthis henc hc =>
    cases hl' with
    | method hscope' hthis' henc' hc' =>
      cases hscope.symm.trans hscope'
      obtain ⟨i, name, hi, hmethod⟩ := hc
      cases hinfo.symm.trans hi
      have hown := ho.derived home info name _ parent hinfo hmethod hparent
      exact (ho.apart home home' _ _ _ ⟨info, name, hinfo, hmethod⟩ hc' (Option.some.inj (henc.symm.trans henc')) hown).symm
    | inner hscope' hthis' _ _ =>
      cases hscope.symm.trans hscope'
      cases hthis.symm.trans hthis'
  | inner hscope hthis henc _ ih =>
    cases hl' with
    | method hscope' hthis' _ _ =>
      cases hscope.symm.trans hscope'
      cases hthis.symm.trans hthis'
    | inner hscope' _ henc' hl' =>
      cases hscope.symm.trans hscope'
      cases henc.symm.trans henc'
      exact ih hl'

end Heap

end Lox
