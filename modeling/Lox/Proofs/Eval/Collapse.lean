/-
  Lox.Proofs.Eval.Collapse — heaps that differ by scopes which bind nothing. Leaving such
  scopes out, and numbering the others anew, leads from one heap to another
  (`Heap.Collapses`). A name stands for the same in both (`Scopes.Collapses.get?`), and the
  two stay alike when scopes are added to both, or an empty one to the first alone.
-/

import Lox.Eval
import Lox.Proofs.Eval.Scopes

namespace Lox

/-- Which scopes are left out, and the numbers of the others. One that is left out goes by
the number of the scope around it. -/
structure Collapse where
  number : ScopeId → ScopeId
  extra : ScopeId → Prop

def Collapse.push (c : Collapse) (id number : ScopeId) (extra : Prop) : Collapse :=
  ⟨fun i => if i = id then number else c.number i, fun i => if i = id then extra else c.extra i⟩

structure Collapse.Grows (c c' : Collapse) (size : Nat) : Prop where
  number : ∀ id, id < size → c'.number id = c.number id
  extra : ∀ id, id < size → (c'.extra id ↔ c.extra id)

theorem Collapse.Grows.refl (c : Collapse) (size : Nat) : c.Grows c size := ⟨fun _ _ => rfl, fun _ _ => .rfl⟩

theorem Collapse.Grows.trans {c c' c'' : Collapse} {size size' : Nat} (h : c.Grows c' size) (h' : c'.Grows c'' size')
    (hle : size ≤ size') : c.Grows c'' size where
  number id hid := (h'.number id (Nat.lt_of_lt_of_le hid hle)).trans (h.number id hid)
  extra id hid := (h'.extra id (Nat.lt_of_lt_of_le hid hle)).trans (h.extra id hid)

theorem Collapse.push_grows (c : Collapse) (id number : ScopeId) (extra : Prop) : c.Grows (c.push id number extra) id := by
  refine ⟨fun i hi => ?_, fun i hi => ?_⟩
  · exact if_neg (Nat.ne_of_lt hi)
  · show (if i = id then extra else c.extra i) ↔ _
    rw [if_neg (Nat.ne_of_lt hi)]

@[simp] theorem Collapse.push_number (c : Collapse) (id number : ScopeId) (extra : Prop) :
    (c.push id number extra).number id = number :=
  if_pos rfl

@[simp] theorem Collapse.push_extra (c : Collapse) (id number : ScopeId) (extra : Prop) :
    (c.push id number extra).extra id ↔ extra := by
  show (if id = id then extra else c.extra id) ↔ _
  rw [if_pos rfl]

/-! ## Scopes -/

structure Scopes.Collapses (c : Collapse) (s s' : Scopes) : Prop where
  ordered : s.Ordered
  ordered' : s'.Ordered
  kept : ∀ (id : Nat) (scope : Scope), s.all[id]? = some scope → ¬ c.extra id →
    s'.all[c.number id]? = some ⟨scope.enclosing.map c.number, scope.bindings⟩
  left : ∀ (id : Nat) (scope : Scope), s.all[id]? = some scope → c.extra id →
    scope.bindings = Table.empty ∧ ∃ outer, scope.enclosing = some outer ∧ c.number outer = c.number id
  apart : ∀ id id', id < s.all.size → id' < s.all.size → ¬ c.extra id → ¬ c.extra id' → c.number id = c.number id' →
    id = id'

namespace Scopes

variable {s s' : Scopes} {c : Collapse} {id outer holder : Nat} {name : Bytes}

theorem getElem?_of_lt (hid : id < s.all.size) : ∃ scope, s.all[id]? = some scope :=
  ⟨s.all[id], Array.getElem?_eq_getElem hid⟩

theorem lt_of_getElem? {scope : Scope} (h : s.all[id]? = some scope) : id < s.all.size :=
  (Array.getElem?_eq_some_iff.mp h).1

theorem getElem?_push_cases {scope scope' : Scope} (h : (s.push scope).all[id]? = some scope') :
    id < s.all.size ∧ s.all[id]? = some scope' ∨ id = s.next ∧ scope' = scope := by
  rcases push_cases h with hnew | hold
  · exact .inr hnew
  · exact .inl ⟨lt_of_getElem? hold, hold⟩

/-- What is around an older scope is older still, and goes by the same number. -/
theorem map_number {c' : Collapse} {size : Nat} (hg : c.Grows c' size) (hs : s.Ordered) {scope : Scope}
    (h : s.all[id]? = some scope) (hid : id ≤ size) : scope.enclosing.map c'.number = scope.enclosing.map c.number := by
  cases henc : scope.enclosing with
  | none => rfl
  | some outer => exact congrArg some (hg.number outer (Nat.lt_of_lt_of_le (hs id scope outer h henc) hid))

namespace Collapses

/-- Scopes may be seen from an extra scope, or from the one around it. -/
theorem number_lt (h : s.Collapses c s') (hid : id < s.all.size) : c.number id < s'.all.size := by
  induction id using Nat.strongRecOn with
  | _ id ih =>
    obtain ⟨scope, hscope⟩ := getElem?_of_lt hid
    by_cases hextra : c.extra id
    · obtain ⟨-, outer, henc, hto⟩ := h.left id scope hscope hextra
      have hlt := h.ordered id scope outer hscope henc
      rw [← hto]
      exact ih outer hlt (Nat.lt_trans hlt hid)
    · exact lt_of_getElem? (h.kept id scope hscope hextra)

/-- A name is bound in the same scope, by its new number. -/
theorem holder? (h : s.Collapses c s') (hid : id < s.all.size) (name : Bytes) :
    s'.holder? (c.number id) name = (s.holder? id name).map c.number := by
  induction id using Nat.strongRecOn with
  | _ id ih =>
    obtain ⟨scope, hscope⟩ := getElem?_of_lt hid
    have houter : ∀ outer, scope.enclosing = some outer →
        s'.holder? (c.number outer) name = (s.holder? outer name).map c.number := by
      intro outer henc
      have hlt := h.ordered id scope outer hscope henc
      exact ih outer hlt (Nat.lt_trans hlt hid)
    rw [holder?_eq h.ordered hscope]
    by_cases hextra : c.extra id
    · obtain ⟨hempty, outer, henc, hto⟩ := h.left id scope hscope hextra
      have hcontains : scope.bindings.contains name = false := by
        rw [hempty]
        rfl
      simp only [hcontains, Bool.false_eq_true, if_false, henc, Option.bind_some]
      rw [← hto]
      exact houter outer henc
    · rw [holder?_eq h.ordered' (h.kept id scope hscope hextra)]
      by_cases hcontains : scope.bindings.contains name = true
      · rw [if_pos hcontains, if_pos hcontains]
        rfl
      · rw [if_neg hcontains, if_neg hcontains]
        cases henc : scope.enclosing with
        | none => rfl
        | some outer => exact houter outer henc

/-- No scope that is left out binds anything. -/
theorem holder_kept (h : s.Collapses c s') (hholder : s.holder? id name = some holder) :
    holder < s.all.size ∧ ¬ c.extra holder := by
  obtain ⟨scope, hscope, hcontains⟩ := holderWithin?_contains hholder
  refine ⟨lt_of_getElem? hscope, fun hextra => ?_⟩
  rw [(h.left holder scope hscope hextra).1] at hcontains
  cases hcontains

theorem own? (h : s.Collapses c s') (hid : id < s.all.size) (hkept : ¬ c.extra id) (name : Bytes) :
    s'.own? (c.number id) name = s.own? id name := by
  obtain ⟨scope, hscope⟩ := getElem?_of_lt hid
  simp only [Scopes.own?, h.kept id scope hscope hkept, hscope, Option.bind_some]

/-- A name stands for the same in both. -/
theorem get? (h : s.Collapses c s') (hid : id < s.all.size) (name : Bytes) :
    s'.get? (c.number id) name = s.get? id name := by
  rw [Scopes.get?, Scopes.get?, h.holder? hid]
  cases hholder : s.holder? id name with
  | none => rfl
  | some holder =>
    obtain ⟨hlt, hkept⟩ := h.holder_kept hholder
    exact h.own? hlt hkept name

/-- The two stay alike under a new numbering of more scopes, if the new scope is as it should be. -/
theorem extend (h : s.Collapses c s') {scope : Scope} {scopes : Scopes} {number : ScopeId} {extra : Prop}
    (ho : (s.push scope).Ordered) (ho' : scopes.Ordered)
    (hsame : ∀ id, id < s'.all.size → scopes.all[id]? = s'.all[id]?)
    (hkept : ¬ extra → number = s'.all.size ∧
      scopes.all[number]? = some ⟨scope.enclosing.map c.number, scope.bindings⟩)
    (hleft : extra → scope.bindings = Table.empty ∧ ∃ outer, scope.enclosing = some outer ∧ c.number outer = number) :
    (s.push scope).Collapses (c.push s.next number extra) scopes := by
  have hgrows : c.Grows (c.push s.next number extra) s.all.size := c.push_grows s.next number extra
  refine ⟨ho, ho', fun id sc hsc hextra => ?_, fun id sc hsc hextra => ?_, fun id id' hid hid' hextra hextra' heq => ?_⟩
  · rcases getElem?_push_cases hsc with ⟨hid, hold⟩ | ⟨rfl, rfl⟩
    · have hold' := h.kept id sc hold fun he => hextra ((hgrows.extra id hid).mpr he)
      rw [hgrows.number id hid, map_number hgrows ho hsc (Nat.le_of_lt hid), hsame _ (lt_of_getElem? hold'), hold']
    · obtain ⟨-, hto⟩ := hkept fun he => hextra ((c.push_extra _ _ _).mpr he)
      rw [Collapse.push_number, map_number hgrows ho hsc (Nat.le_refl _), hto]
  · rcases getElem?_push_cases hsc with ⟨hid, hold⟩ | ⟨rfl, rfl⟩
    · obtain ⟨hempty, outer, henc, hto⟩ := h.left id sc hold ((hgrows.extra id hid).mp hextra)
      have hlt := h.ordered id sc outer hold henc
      refine ⟨hempty, outer, henc, ?_⟩
      rw [hgrows.number outer (Nat.lt_trans hlt hid), hgrows.number id hid, hto]
    · obtain ⟨hempty, outer, henc, hto⟩ := hleft ((c.push_extra _ _ _).mp hextra)
      refine ⟨hempty, outer, henc, ?_⟩
      rw [Collapse.push_number, hgrows.number outer (ho _ sc outer hsc henc), hto]
  · obtain ⟨sc, hsc⟩ := getElem?_of_lt hid
    obtain ⟨sc', hsc'⟩ := getElem?_of_lt hid'
    -- A new scope that stays has a number that no other has.
    have hnew : ∀ i, i < s.all.size → ¬ (c.push s.next number extra).extra s.next →
        (c.push s.next number extra).number i ≠ (c.push s.next number extra).number s.next := by
      intro i hi hstays heq
      obtain ⟨hto, -⟩ := hkept fun he => hstays ((c.push_extra _ _ _).mpr he)
      rw [hgrows.number i hi, Collapse.push_number, hto] at heq
      exact absurd heq (Nat.ne_of_lt (h.number_lt hi))
    rcases getElem?_push_cases hsc with ⟨hold, -⟩ | ⟨rfl, -⟩
    · rcases getElem?_push_cases hsc' with ⟨hold', -⟩ | ⟨rfl, -⟩
      · rw [hgrows.number id hold, hgrows.number id' hold'] at heq
        exact h.apart id id' hold hold' (fun he => hextra ((hgrows.extra id hold).mpr he))
          (fun he => hextra' ((hgrows.extra id' hold').mpr he)) heq
      · exact absurd heq (hnew id hold hextra')
    · rcases getElem?_push_cases hsc' with ⟨hold', -⟩ | ⟨rfl, -⟩
      · exact absurd heq.symm (hnew id' hold' hextra)
      · rfl

/-- The same scope is added to both. -/
theorem push (h : s.Collapses c s') (ho : outer < s.all.size) (bindings : Table Value) :
    (s.push ⟨some outer, bindings⟩).Collapses (c.push s.next s'.next False) (s'.push ⟨some (c.number outer), bindings⟩) :=
  h.extend (push_ordered h.ordered bindings ho) (push_ordered h.ordered' bindings (h.number_lt ho))
    (fun _ hid => getElem?_push s' _ hid) (fun _ => ⟨rfl, getElem?_push_next s' _⟩) nofun

/-- An empty scope is added to the first alone. -/
theorem pushExtra (h : s.Collapses c s') (ho : outer < s.all.size) :
    (s.push ⟨some outer, Table.empty⟩).Collapses (c.push s.next (c.number outer) True) s' :=
  h.extend (push_ordered h.ordered Table.empty ho) h.ordered' (fun _ _ => rfl) (fun he => absurd trivial he)
    fun _ => ⟨rfl, outer, rfl, rfl⟩

/-- A name is bound in a scope that stays. -/
theorem define (h : s.Collapses c s') (hid : id < s.all.size) (hkept : ¬ c.extra id) (name : Bytes) (value : Value) :
    (s.define id name value).Collapses c (s'.define (c.number id) name value) := by
  have hsize : (s.define id name value).all.size = s.all.size := Array.size_modify
  refine ⟨define_ordered h.ordered id name value, define_ordered h.ordered' (c.number id) name value,
    fun i scope hscope hstays => ?_, fun i scope hscope hextra => ?_, ?_⟩
  · rw [getElem?_define] at hscope ⊢
    by_cases hi : id = i
    · subst hi
      rw [if_pos rfl] at hscope ⊢
      obtain ⟨old, hold, rfl⟩ := Option.map_eq_some_iff.mp hscope
      rw [h.kept id old hold hkept]
      rfl
    · rw [if_neg hi] at hscope
      have hne : c.number id ≠ c.number i := fun heq => hi (h.apart id i hid (lt_of_getElem? hscope) hkept hstays heq)
      rw [if_neg hne]
      exact h.kept i scope hscope hstays
  · have hi : id ≠ i := by
      rintro rfl
      exact hkept hextra
    rw [getElem?_define, if_neg hi] at hscope
    exact h.left i scope hscope hextra
  · rw [hsize]
    exact h.apart

end Collapses

end Scopes

/-! ## Heaps -/

structure Closure.Moves (c : Collapse) (size : Nat) (f f' : Closure) : Prop where
  exists_scope : f.scope < size
  kept : ¬ c.extra f.scope
  eq : f' = { f with scope := c.number f.scope }

theorem Closure.Moves.mono {c c' : Collapse} {size size' : Nat} {f f' : Closure} (h : f.Moves c size f')
    (hc : c.Grows c' size) (hle : size ≤ size') : f.Moves c' size' f' where
  exists_scope := Nat.lt_of_lt_of_le h.exists_scope hle
  kept he := h.kept ((hc.extra _ h.exists_scope).mp he)
  eq := by rw [hc.number _ h.exists_scope]; exact h.eq

structure ClassInfo.Moves (c : Collapse) (size : Nat) (info info' : ClassInfo) : Prop where
  name : info'.name = info.name
  superclass : info'.superclass = info.superclass
  methods : ∀ name, Option.Rel (Closure.Moves c size) (info.methods.get? name) (info'.methods.get? name)

/-- Two arrays that hold related things in the same places. -/
def Paired {α β : Type} (R : α → β → Prop) (xs : Array α) (ys : Array β) : Prop :=
  ∀ id : Nat, Option.Rel R xs[id]? ys[id]?

section

variable {α β : Type} {R S : α → β → Prop}

theorem rel_cases {o : Option α} {o' : Option β} (h : Option.Rel R o o') :
    o = none ∧ o' = none ∨ ∃ a b, o = some a ∧ o' = some b ∧ R a b := by
  cases h with
  | none => exact .inl ⟨rfl, rfl⟩
  | some hr => exact .inr ⟨_, _, rfl, rfl, hr⟩

theorem rel_imp {o : Option α} {o' : Option β} (h : Option.Rel R o o') (hrs : ∀ a b, R a b → S a b) :
    Option.Rel S o o' := by
  cases h with
  | none => exact .none
  | some hr => exact .some (hrs _ _ hr)

variable {xs : Array α} {ys : Array β}

theorem Paired.imp (h : Paired R xs ys) (hrs : ∀ a b, R a b → S a b) : Paired S xs ys := fun id => rel_imp (h id) hrs

theorem Paired.size_eq (h : Paired R xs ys) : ys.size = xs.size := by
  have hnone : ∀ id : Nat, xs[id]? = none ↔ ys[id]? = none := by
    intro id
    obtain ⟨hx, hy⟩ | ⟨a, b, hx, hy, -⟩ := rel_cases (h id)
    · rw [hx, hy]
      exact ⟨fun _ => rfl, fun _ => rfl⟩
    · rw [hx, hy]
      exact ⟨nofun, nofun⟩
  have hx := (hnone xs.size).mp (by simp)
  have hy := (hnone ys.size).mpr (by simp)
  simp only [Array.getElem?_eq_none_iff] at hx hy
  omega

theorem Paired.push (h : Paired R xs ys) {a : α} {b : β} (hr : R a b) : Paired R (xs.push a) (ys.push b) := by
  intro id
  rw [Array.getElem?_push, Array.getElem?_push, h.size_eq]
  by_cases hid : id = xs.size
  · rw [if_pos hid, if_pos hid]
    exact .some hr
  · rw [if_neg hid, if_neg hid]
    exact h id

end

structure Heap.Collapses (c : Collapse) (h h' : Heap) : Prop where
  scopes : h.scopes.Collapses c h'.scopes
  functions : Paired (Closure.Moves c h.scopes.all.size) h.functions h'.functions
  classes : Paired (ClassInfo.Moves c h.scopes.all.size) h.classes h'.classes
  objects : h'.objects = h.objects

namespace Heap.Collapses

variable {h h' : Heap} {c c' : Collapse}

/-- Other scopes, in which the functions are found as before. -/
theorem withScopes (hc : h.Collapses c h') {scopes scopes' : Scopes} (hs : scopes.Collapses c' scopes')
    (hgrows : c.Grows c' h.scopes.all.size) (hle : h.scopes.all.size ≤ scopes.all.size) :
    Heap.Collapses c' { h with scopes } { h' with scopes := scopes' } where
  scopes := hs
  functions := hc.functions.imp fun _ _ hm => hm.mono hgrows hle
  classes := hc.classes.imp fun _ _ hm => ⟨hm.name, hm.superclass, fun name => rel_imp (hm.methods name) fun _ _ hm =>
    hm.mono hgrows hle⟩
  objects := hc.objects

theorem methodWithin? (hc : h.Collapses c h') (name : Bytes) (bound id : Nat) :
    Option.Rel (Closure.Moves c h.scopes.all.size) (h.methodWithin? name bound id) (h'.methodWithin? name bound id) := by
  induction bound generalizing id with
  | zero => exact .none
  | succ bound ih =>
    unfold Heap.methodWithin?
    obtain ⟨hx, hy⟩ | ⟨info, info', hx, hy, hm⟩ := rel_cases (hc.classes id)
    · rw [hx, hy]
      exact .none
    · rw [hx, hy]
      dsimp only
      obtain ⟨hx, hy⟩ | ⟨f, f', hx, hy, hf⟩ := rel_cases (hm.methods name)
      · rw [hx, hy, hm.superclass]
        cases info.superclass with
        | none => exact .none
        | some parent => exact ih parent
      · rw [hx, hy]
        exact .some hf

/-- Methods are found in the same classes, with their scopes by the new numbers. -/
theorem method? (hc : h.Collapses c h') (id : ClassId) (name : Bytes) :
    Option.Rel (Closure.Moves c h.scopes.all.size) (h.method? id name) (h'.method? id name) :=
  hc.methodWithin? name (id + 1) id

theorem arity? (hc : h.Collapses c h') (v : Value) : h'.arity? v = h.arity? v := by
  have harity : ∀ {o o' : Option Closure}, Option.Rel (Closure.Moves c h.scopes.all.size) o o' →
      o'.map Closure.arity = o.map Closure.arity := by
    intro o o' hrel
    cases hrel with
    | none => rfl
    | some hm => exact congrArg some (by rw [hm.eq]; rfl)
  cases v with
  | function id => exact harity (hc.functions id)
  | classRef id =>
    have hmethod := harity (hc.method? id initializerName)
    simp only [Heap.arity?, hmethod]
  | _ => rfl

theorem className (hc : h.Collapses c h') (id : ClassId) : h'.className id = h.className id := by
  unfold Heap.className
  obtain ⟨hx, hy⟩ | ⟨info, info', hx, hy, hm⟩ := rel_cases (hc.classes id)
  · rw [hx, hy]
  · rw [hx, hy, Option.map_some, Option.map_some, hm.name]

/-- Scopes are not printed. -/
theorem render (hc : h.Collapses c h') (v : Value) : h'.render v = h.render v := by
  cases v with
  | function id =>
    simp only [Heap.render]
    obtain ⟨hx, hy⟩ | ⟨f, f', hx, hy, hm⟩ := rel_cases (hc.functions id)
    · rw [hx, hy]
    · rw [hx, hy, Option.map_some, Option.map_some, hm.eq]
  | classRef id => exact hc.className id
  | object id => simp only [Heap.render, hc.objects, hc.className]
  | _ => rfl

end Heap.Collapses

/-! ## Machines -/

/-- The machines differ by the scopes that are left out, and in nothing else. -/
structure Machine.Collapses (c : Collapse) (m m' : Machine) : Prop where
  heap : m.heap.Collapses c m'.heap
  current : m.scope < m.heap.scopes.all.size
  scope : m'.scope = c.number m.scope
  depth : m'.depth = m.depth
  printed : m'.printed = m.printed
  clock : m'.clock = m.clock
  readings : m'.readings = m.readings

end Lox
