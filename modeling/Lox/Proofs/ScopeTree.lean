/-
  Lox.Proofs.ScopeTree — names in a tree of scopes. From each scope one way leads outwards
  (`Scopes.Path`), and a name stands for what the first scope on it that binds the name binds
  it to (`Scopes.Path.get?_eq`). Everything else is about where a binding can be seen from: a
  new one is seen exactly from the scopes whose way outwards comes to its scope before it comes
  to another binding of the name (`Scopes.Meets`), and an assignment is the same at the scope
  that is found (`reads_and_assignments_agree`).
-/

import Lox.Proofs.Eval.Bindings
import Mathlib.Data.List.Basic

namespace Lox

open Eval

namespace Scopes

variable {s : Scopes} {id holder : ScopeId} {name other : Bytes} {path : List ScopeId}

/-! ## The way outwards -/

/-- The scope itself, the one around it, and so on to one that is within no other. -/
inductive Path (s : Scopes) : ScopeId → List ScopeId → Prop
  | root {id : ScopeId} {scope : Scope} : s.all[id]? = some scope → scope.enclosing = none → Path s id [id]
  | inner {id outer : ScopeId} {scope : Scope} {path : List ScopeId} :
      s.all[id]? = some scope → scope.enclosing = some outer → Path s outer path → Path s id (id :: path)

theorem Path.unique {path' : List ScopeId} (h : s.Path id path) (h' : s.Path id path') : path = path' := by
  induction h generalizing path' with
  | root hid henc =>
    cases h' with
    | root => rfl
    | inner hid' henc' =>
      cases hid.symm.trans hid'
      cases henc.symm.trans henc'
  | inner hid henc _ ih =>
    cases h' with
    | root hid' henc' =>
      cases hid.symm.trans hid'
      cases henc.symm.trans henc'
    | inner hid' henc' h' =>
      cases hid.symm.trans hid'
      cases henc.symm.trans henc'
      rw [ih h']

/-- Every scope has a way outwards: each enclosing scope is older. -/
theorem Ordered.exists_path (hs : s.Ordered) (hid : id < s.all.size) : ∃ path, s.Path id path := by
  induction id using Nat.strongRecOn with
  | ind id ih =>
    have hscope : s.all[id]? = some s.all[id] := Array.getElem?_eq_getElem hid
    cases henc : s.all[id].enclosing with
    | none => exact ⟨[id], .root hscope henc⟩
    | some outer =>
      have hlt := hs id _ outer hscope henc
      obtain ⟨path, hpath⟩ := ih outer hlt (Nat.lt_trans hlt hid)
      exact ⟨id :: path, .inner hscope henc hpath⟩

theorem contains_iff_own {scope : Scope} (h : s.all[id]? = some scope) :
    scope.bindings.contains name = (s.own? id name).isSome := by
  rw [own?, h]
  rfl

/-- The scope that binds a name is the first one on the way that does. -/
theorem Path.holder?_eq (h : s.Path id path) (hs : s.Ordered) (name : Bytes) :
    s.holder? id name = path.find? fun b => (s.own? b name).isSome := by
  induction h with
  | root hid henc =>
    rw [Scopes.holder?_eq hs hid, henc, contains_iff_own hid, List.find?_cons]
    cases (s.own? _ name).isSome <;> rfl
  | inner hid henc _ ih =>
    rw [Scopes.holder?_eq hs hid, henc, contains_iff_own hid, List.find?_cons]
    cases (s.own? _ name).isSome
    · exact ih
    · rfl

theorem find?_bind {α β : Type} (l : List α) (f : α → Option β) :
    ((l.find? fun a => (f a).isSome).bind f) = (l.filterMap f).head? := by
  induction l with
  | nil => rfl
  | cons a l ih =>
    rw [List.find?_cons, List.filterMap_cons]
    cases hf : f a with
    | none => exact ih
    | some b => exact hf

/-- A name stands for the first of what the scopes on the way bind it to. -/
theorem Path.get?_eq (h : s.Path id path) (hs : s.Ordered) (name : Bytes) :
    s.get? id name = (path.filterMap fun b => s.own? b name).head? := by
  rw [Scopes.get?, h.holder?_eq hs, find?_bind]

theorem get?_of_none (h : s.all[id]? = none) (name : Bytes) : s.get? id name = none := by
  simp only [get?, holder?, holderWithin?, h, Option.bind_none]

theorem Resolves.lt_size (h : s.Resolves id name) : id < s.all.size := by
  by_contra hid
  rw [Resolves, get?_of_none (Array.getElem?_eq_none (Nat.le_of_not_lt hid))] at h
  cases h

/-! ## Where a binding is seen from -/

/-- The way outwards from `id` comes to `holder`, and to no binding of the name before it. -/
def Meets (s : Scopes) (id : ScopeId) (name : Bytes) (holder : ScopeId) : Prop :=
  ∃ before after, s.Path id (before ++ holder :: after) ∧ ∀ b ∈ before, name ∉ s.names b

/-- The nearest binding of the name, seen from `id`, is the one in `holder`. -/
def ResolvesTo (s : Scopes) (id : ScopeId) (name : Bytes) (holder : ScopeId) : Prop :=
  s.Meets id name holder ∧ name ∈ s.names holder

theorem mem_names_iff : name ∈ s.names id ↔ (s.own? id name).isSome = true := Iff.rfl

theorem resolves_of_mem_names (h : name ∈ s.names id) : s.Resolves id name := by
  obtain ⟨value, hown⟩ := Option.isSome_iff_exists.mp h
  rw [Resolves, get?_of_own hown]
  rfl

/-- A name is looked for exactly as far as the scope that it resolves to. -/
theorem holder?_eq_some (hs : s.Ordered) (hid : id < s.all.size) :
    s.holder? id name = some holder ↔ s.ResolvesTo id name holder := by
  obtain ⟨path, hpath⟩ := hs.exists_path hid
  rw [hpath.holder?_eq hs, List.find?_eq_some_iff_append]
  constructor
  · rintro ⟨hbinds, before, after, rfl, hbefore⟩
    refine ⟨⟨before, after, hpath, fun b hb hname => ?_⟩, hbinds⟩
    have hnone := hbefore b hb
    rw [mem_names_iff.mp hname] at hnone
    cases hnone
  · rintro ⟨⟨before, after, hpath', hbefore⟩, hbinds⟩
    refine ⟨hbinds, before, after, hpath.unique hpath', fun b hb => ?_⟩
    rw [Bool.not_eq_true', ← Bool.not_eq_true]
    exact hbefore b hb

theorem Path.resolves_iff (h : s.Path id path) (hs : s.Ordered) :
    s.Resolves id name ↔ ∃ holder ∈ path, name ∈ s.names holder := by
  rw [Resolves, h.get?_eq hs, List.head?_filterMap, List.findSome?_isSome_iff]
  rfl

/-! ## One more binding -/

theorem enclosing_define {scope : Scope} (h : s.all[id]? = some scope) (holder : ScopeId) (name : Bytes) (value : Value) :
    ∃ scope', (s.define holder name value).all[id]? = some scope' ∧ scope'.enclosing = scope.enclosing := by
  rw [getElem?_define, h]
  split
  · exact ⟨_, rfl, rfl⟩
  · exact ⟨scope, rfl, rfl⟩

/-- A new binding leaves all ways outwards as they are. -/
theorem Path.define (h : s.Path id path) (holder : ScopeId) (name : Bytes) (value : Value) :
    (s.define holder name value).Path id path := by
  induction h with
  | root hid henc =>
    obtain ⟨scope', hid', henc'⟩ := enclosing_define hid holder name value
    exact .root hid' (henc'.trans henc)
  | inner hid henc _ ih =>
    obtain ⟨scope', hid', henc'⟩ := enclosing_define hid holder name value
    exact .inner hid' (henc'.trans henc) ih

section

variable (hs : s.Ordered) (value : Value)

include hs

/-- A new binding is seen from where the way outwards comes to it first. -/
theorem get?_define_of_meets (hholder : holder < s.all.size) (h : s.Meets id name holder) :
    (s.define holder name value).get? id name = some value := by
  obtain ⟨before, after, hpath, hbefore⟩ := h
  have hown : (s.define holder name value).own? holder name = some value := by
    rw [own?_define_eq, if_pos ⟨rfl, rfl⟩, Array.getElem?_eq_getElem hholder, Option.map_some]
  -- Before it there is no binding, unless its own scope is among those.
  have hfirst : ∀ v ∈ before.filterMap fun b => (s.define holder name value).own? b name, v = value := by
    intro v hv
    obtain ⟨b, hb, hv⟩ := List.mem_filterMap.mp hv
    rw [own?_define_eq] at hv
    split at hv
    · obtain ⟨_, -, rfl⟩ := Option.map_eq_some_iff.mp hv
      rfl
    · exact absurd (Option.isSome_of_eq_some hv) (hbefore b hb)
  rw [(hpath.define holder name value).get?_eq (define_ordered hs holder name value), List.filterMap_append,
    List.filterMap_cons, hown]
  cases hseen : before.filterMap fun b => (s.define holder name value).own? b name with
  | nil => rfl
  | cons v rest =>
    rw [hseen] at hfirst
    rw [hfirst v List.mem_cons_self]
    rfl

/-- From everywhere else, and under other names, things look as before. -/
theorem get?_define_of_not (h : ¬ (other = name ∧ s.Meets id name holder)) :
    (s.define holder name value).get? id other = s.get? id other := by
  cases hid : s.all[id]? with
  | none =>
    have hid' : (s.define holder name value).all[id]? = none := by
      rw [getElem?_define, hid]
      split <;> rfl
    rw [get?_of_none hid, get?_of_none hid']
  | some scope =>
    obtain ⟨path, hpath⟩ := hs.exists_path (Array.getElem?_eq_some_iff.mp hid).1
    rw [(hpath.define holder name value).get?_eq (define_ordered hs holder name value), hpath.get?_eq hs]
    have hsame : ∀ l : List ScopeId, (holder ∈ l → other ≠ name) →
        (l.filterMap fun b => (s.define holder name value).own? b other) = l.filterMap fun b => s.own? b other := by
      intro l hl
      refine List.filterMap_congr fun b hb => ?_
      rw [own?_define_eq, if_neg]
      rintro ⟨rfl, hname⟩
      exact hl hb hname
    by_cases hmem : holder ∈ path ∧ other = name
    · obtain ⟨hmem, rfl⟩ := hmem
      obtain ⟨before, after, rfl, hbefore⟩ := List.eq_append_cons_of_mem hmem
      -- Some scope before it binds the name, and that binding is still the first.
      obtain ⟨v, rest, hseen⟩ : ∃ v rest, (before.filterMap fun b => s.own? b other) = v :: rest := by
        refine List.exists_cons_of_ne_nil fun hnone => h ⟨rfl, before, after, hpath, fun b hb hname => ?_⟩
        have hown := List.filterMap_eq_nil_iff.mp hnone b hb
        rw [mem_names_iff, hown] at hname
        cases hname
      rw [List.filterMap_append, List.filterMap_append, hsame before fun hb => absurd hb hbefore, hseen]
      rfl
    · rw [hsame path fun hp hname => hmem ⟨hp, hname⟩]

end

/-- In `s'` the name is bound to the value in `holder`, which is seen from some scopes, and all
else is as in `s`. -/
structure Rebinds (s : Scopes) (holder : ScopeId) (name : Bytes) (value : Value) (Sees : ScopeId → Prop) (s' : Scopes) :
    Prop where
  enclosing : ∀ id : ScopeId, s'.all[id]?.map Scope.enclosing = s.all[id]?.map Scope.enclosing
  binding : s'.own? holder name = some value
  bindings : ∀ id other, ¬ (id = holder ∧ other = name) → s'.own? id other = s.own? id other
  seen : ∀ id, Sees id → s'.get? id name = some value
  unseen : ∀ id other, ¬ (other = name ∧ Sees id) → s'.get? id other = s.get? id other

/-- A binding is seen from the scopes that meet its scope first, and from no others. -/
theorem define_rebinds (hs : s.Ordered) (hholder : holder < s.all.size) (name : Bytes) (value : Value) :
    s.Rebinds holder name value (fun id => s.Meets id name holder) (s.define holder name value) where
  enclosing id := by
    rw [getElem?_define]
    split
    · rw [Option.map_map]
      rfl
    · rfl
  binding := by rw [own?_define_eq, if_pos ⟨rfl, rfl⟩, Array.getElem?_eq_getElem hholder, Option.map_some]
  bindings id other h := by rw [own?_define_eq, if_neg h]
  seen _ h := get?_define_of_meets hs value hholder h
  unseen _ _ h := get?_define_of_not hs value h

end Scopes

/-! ## Steps -/

inductive ScopeStep where
  | new (outer : ScopeId)
  | define (id : ScopeId) (name : Bytes) (value : Value)
  | assign (id : ScopeId) (name : Name) (value : Value)
  | get (id : ScopeId) (name : Name)

namespace ScopeStep

variable {m m' : Machine} {id : ScopeId} {name : Name} {value : Value}

def scope : ScopeStep → ScopeId
  | .new outer => outer
  | .define id _ _ => id
  | .assign id _ _ => id
  | .get id _ => id

def perform : ScopeStep → Eval (Option Value)
  | .new outer => do
    let _ ← newScope outer Table.empty
    return none
  | .define id name value => do
    inScope id (Eval.define name value)
    return none
  | .assign id name value => do
    inScope id (Eval.assign name value)
    return none
  | .get id name => do
    let value ← inScope id (lookup name)
    return some value

def Succeeds (step : ScopeStep) (m : Machine) : Prop := ∃ result, (step.perform m).1 = .ok result

/-- Steps one after the other, each in a scope that is there by then. One that fails is
followed by the next all the same. -/
inductive Performs : Machine → List ScopeStep → Machine → Prop
  | nil {m : Machine} : Performs m [] m
  | cons {m m' : Machine} {step : ScopeStep} {steps : List ScopeStep} :
      step.scope < m.heap.scopes.next → Performs (step.perform m).2 steps m' → Performs m (step :: steps) m'

def undefined (name : Name) : Halt := .fault ⟨name.line, .undefinedVariable name.text⟩

/-- A step that is taken elsewhere and leaves the place to come back to. -/
theorem inScope_restored {α : Type} {x : Eval α} {r : Except Halt α} (hscope : m'.scope = m.scope)
    (h : x { m with scope := id } = (r, { m' with scope := id })) : inScope id x m = (r, m') := by
  rw [inScope_run h, ← hscope]

theorem perform_get : (get id name).perform m =
    ((m.heap.scopes.get? id name.text).elim (.error (undefined name)) fun value => .ok (some value), m) := by
  have hlookup : inScope id (lookup name) m =
      ((m.heap.scopes.get? id name.text).elim (.error (undefined name)) .ok, m) := by
    apply inScope_restored rfl
    rw [lookup, get_bind]
    cases m.heap.scopes.get? id name.text <;> rfl
  rw [perform, bind_run, hlookup]
  cases m.heap.scopes.get? id name.text <;> rfl

theorem perform_assign : (assign id name value).perform m =
    (m.heap.scopes.holder? id name.text).elim (.error (undefined name), m) fun holder =>
      (.ok none, m.bindName holder name.text value) := by
  rw [perform]
  cases hholder : m.heap.scopes.holder? id name.text with
  | none =>
    exact bind_error (inScope_restored rfl (assign_unbound hholder))
  | some holder =>
    exact bind_ok (a := ()) (inScope_restored rfl (assign_bound hholder))

/-- A name can be read if and only if it resolves. -/
theorem get_succeeds_iff : (get id name).Succeeds m ↔ m.heap.scopes.Resolves id name.text := by
  unfold Succeeds Scopes.Resolves
  rw [perform_get]
  cases m.heap.scopes.get? id name.text <;> simp

/-- It can be assigned under the same condition. -/
theorem assign_succeeds_iff : (assign id name value).Succeeds m ↔ m.heap.scopes.Resolves id name.text := by
  unfold Succeeds
  rw [Scopes.resolves_iff, perform_assign]
  cases m.heap.scopes.holder? id name.text <;> simp

/-- A step that fails changes nothing. -/
theorem perform_of_fails {step : ScopeStep} (h : ¬ step.Succeeds m) : (step.perform m).2 = m := by
  cases step with
  | new | define => exact absurd ⟨none, rfl⟩ h
  | assign id name value =>
    rw [assign_succeeds_iff, Scopes.resolves_iff, not_exists, ← Option.eq_none_iff_forall_ne_some] at h
    rw [perform_assign, h]
    rfl
  | get id name => rw [perform_get]

/-- Every step keeps the order of the scopes. -/
theorem perform_ordered {step : ScopeStep} (hs : m.heap.scopes.Ordered) (hscope : step.scope < m.heap.scopes.next) :
    (step.perform m).2.heap.scopes.Ordered := by
  cases step with
  | new outer => exact Scopes.push_ordered hs Table.empty hscope
  | define id name value => exact Scopes.define_ordered hs id name value
  | assign id name value =>
    rw [perform_assign]
    cases m.heap.scopes.holder? id name.text with
    | none => exact hs
    | some holder => exact Scopes.define_ordered hs holder name.text value
  | get id name =>
    rw [perform_get]
    exact hs

theorem Performs.ordered {steps : List ScopeStep} (h : Performs m steps m') (hs : m.heap.scopes.Ordered) :
    m'.heap.scopes.Ordered := by
  induction h with
  | nil => exact hs
  | cons hscope _ ih => exact ih (perform_ordered hs hscope)

end ScopeStep

open ScopeStep in
/-- Whatever has been done with the scopes of a machine: a name can be read in a scope exactly
if it can be assigned there, which is if a scope on the way outwards binds it. A step that fails
changes nothing. An assignment changes one binding, the nearest, which is seen from the scopes
that resolve the name to it; a declaration is seen from those whose way outwards comes to it
before it comes to another binding of the name. -/
theorem reads_and_assignments_agree {m m' : Machine} (hm : m.heap.scopes.Ordered) {steps : List ScopeStep}
    (hsteps : Performs m steps m') :
    let s := m'.heap.scopes
    (∀ id < s.next, ∃! path, s.Path id path) ∧
    (∀ id path, s.Path id path → ∀ (name : Name) (value : Value),
      ((get id name).Succeeds m' ↔ ∃ holder ∈ path, name.text ∈ s.names holder) ∧
      ((assign id name value).Succeeds m' ↔ ∃ holder ∈ path, name.text ∈ s.names holder)) ∧
    (∀ id name, ((get id name).perform m').2 = m' ∧
      ∀ value, ((get id name).perform m').1 = .ok (some value) ↔ s.get? id name.text = some value) ∧
    (∀ step : ScopeStep, ¬ step.Succeeds m' → (step.perform m').2 = m') ∧
    (∀ id name value, (assign id name value).Succeeds m' → ∃ holder, s.ResolvesTo id name.text holder ∧
      s.Rebinds holder name.text value (fun t => s.ResolvesTo t name.text holder)
        ((assign id name value).perform m').2.heap.scopes) ∧
    ∀ id < s.next, ∀ name value, (define id name value).Succeeds m' ∧
      s.Rebinds id name value (fun t => s.Meets t name id) ((define id name value).perform m').2.heap.scopes := by
  intro s
  have hs : s.Ordered := hsteps.ordered hm
  refine ⟨fun id hid => ?_, fun id path hpath name value => ?_, fun id name => ?_, fun _ => perform_of_fails, ?_, ?_⟩
  · obtain ⟨path, hpath⟩ := hs.exists_path hid
    exact ⟨path, hpath, fun _ h => h.unique hpath⟩
  · rw [get_succeeds_iff, assign_succeeds_iff, hpath.resolves_iff hs]
    exact ⟨.rfl, .rfl⟩
  · rw [perform_get]
    refine ⟨rfl, fun value => ?_⟩
    cases s.get? id name.text <;> simp
  · intro id name value hsucceeds
    have hname := assign_succeeds_iff.mp hsucceeds
    obtain ⟨holder, hholder⟩ := Scopes.resolves_iff.mp hname
    have hresolves := (Scopes.holder?_eq_some hs hname.lt_size).mp hholder
    refine ⟨holder, hresolves, ?_⟩
    have hseen : (fun t => s.ResolvesTo t name.text holder) = fun t => s.Meets t name.text holder :=
      funext fun t => propext (and_iff_left hresolves.2)
    rw [perform_assign, hholder, hseen]
    exact Scopes.define_rebinds hs (Scopes.resolves_of_mem_names hresolves.2).lt_size name.text value
  · intro id hid name value
    exact ⟨⟨none, rfl⟩, Scopes.define_rebinds hs hid name value⟩

namespace Shadowing

def start : Machine := { heap := .initial, clock := fun _ => 0 }

def steps : List ScopeStep := [.new 0, .new 0, .define 0 (utf8 "a") (.bool true), .define 1 (utf8 "a") .nil]

def machine : Machine := steps.foldl (fun m step => (step.perform m).2) start

theorem start_ordered : start.heap.scopes.Ordered := by
  intro id scope outer hid henc
  obtain ⟨hlt, rfl⟩ := Array.getElem?_eq_some_iff.mp hid
  obtain rfl : id = 0 := Nat.lt_one_iff.mp hlt
  cases henc

theorem performs : ScopeStep.Performs start steps machine :=
  .cons (by decide) (.cons (by decide) (.cons (by decide) (.cons (by decide) .nil)))

end Shadowing

open ScopeStep Shadowing in
/-- An assignment in the scope that does not bind the name itself is seen from there and from
the outermost scope, and not from the one beside it. -/
theorem reads_and_assignments_agree_shadowing :
    let step : ScopeStep := .assign 2 ⟨utf8 "a", 1⟩ (.bool false)
    Performs start steps machine ∧ step.Succeeds machine ∧
      (step.perform machine).2.heap.scopes.get? 2 (utf8 "a") = some (.bool false) ∧
      (step.perform machine).2.heap.scopes.get? 0 (utf8 "a") = some (.bool false) ∧
      (step.perform machine).2.heap.scopes.get? 1 (utf8 "a") = some .nil := by
  intro step
  have hs : machine.heap.scopes.Ordered := performs.ordered start_ordered
  have hholders : (machine.heap.scopes.holder? 2 (utf8 "a") = some 0 ∧ machine.heap.scopes.holder? 0 (utf8 "a") = some 0) ∧
      machine.heap.scopes.holder? 1 (utf8 "a") = some 1 := by decide +kernel
  have hsucceeds : step.Succeeds machine := assign_succeeds_iff.mpr (Scopes.resolves_iff.mpr ⟨0, hholders.1.1⟩)
  obtain ⟨-, -, -, -, hassign, -⟩ := reads_and_assignments_agree start_ordered performs
  obtain ⟨holder, hresolves, hrebinds⟩ := hassign 2 ⟨utf8 "a", 1⟩ (.bool false) hsucceeds
  obtain rfl : 0 = holder :=
    Option.some.inj (hholders.1.1.symm.trans ((Scopes.holder?_eq_some hs (by decide)).mpr hresolves))
  refine ⟨performs, hsucceeds, hrebinds.seen 2 hresolves, hrebinds.seen 0 ?_, (hrebinds.unseen 1 _ ?_).trans rfl⟩
  · exact (Scopes.holder?_eq_some hs (by decide)).mp hholders.1.2
  · rintro ⟨-, hseen⟩
    exact absurd (hholders.2.symm.trans ((Scopes.holder?_eq_some hs (by decide)).mpr hseen)) (by decide)

end Lox
