/-
  Lox.Proofs.Eval.Scopes — scopes as programs make and change them. Programs have no way to
  bind the two reserved words, so what a scope knows of the receiver and of the superclass
  stays (`Scopes.Extends.get?`), however many scopes and bindings are added.
-/

import Lox.Heap

namespace Lox

/-- The words for the receiver and the superclass, which no program can bind. -/
def Reserved (name : Bytes) : Prop := name = thisName ∨ name = superName

theorem thisName_ne_superName : thisName ≠ superName := by decide

section

variable {α : Type} {xs : Array α} {x y : α} {i : Nat}

/-- Adding an entry changes none that is there. -/
theorem push_keeps (x : α) (h : xs[i]? = some y) : (xs.push x)[i]? = some y := by
  have hlt := (Array.getElem?_eq_some_iff.mp h).1
  rw [Array.getElem?_push, if_neg (Nat.ne_of_lt hlt), h]

/-- Each entry is the one added last, or was there before. -/
theorem push_cases (h : (xs.push x)[i]? = some y) : i = xs.size ∧ y = x ∨ xs[i]? = some y := by
  rw [Array.getElem?_push] at h
  split at h
  · rename_i heq
    exact .inl ⟨heq, (Option.some.inj h).symm⟩
  · exact .inr h

end

namespace Scopes

variable {s s' s'' : Scopes} {name : Bytes} {id outer : Nat}

/-- Each scope is younger than the one around it. -/
def Ordered (s : Scopes) : Prop :=
  ∀ (id : Nat) (scope : Scope) (outer : Nat), s.all[id]? = some scope → scope.enclosing = some outer → outer < id

/-- Every scope is still there, with the same scope around it and the same receiver and
superclass. -/
def Extends (s s' : Scopes) : Prop :=
  ∀ (id : Nat) (scope : Scope), s.all[id]? = some scope →
    ∃ scope', s'.all[id]? = some scope' ∧ scope'.enclosing = scope.enclosing ∧
      ∀ name, Reserved name → scope'.bindings.get? name = scope.bindings.get? name

theorem Extends.refl (s : Scopes) : s.Extends s := fun _ scope h => ⟨scope, h, rfl, fun _ _ => rfl⟩

theorem Extends.trans (h : s.Extends s') (h' : s'.Extends s'') : s.Extends s'' := by
  intro id scope hs
  obtain ⟨scope', hs', henc, hget⟩ := h id scope hs
  obtain ⟨scope'', hs'', henc', hget'⟩ := h' id scope' hs'
  exact ⟨scope'', hs'', henc'.trans henc, fun name hn => (hget' name hn).trans (hget name hn)⟩

theorem Extends.size_le (h : s.Extends s') : s.all.size ≤ s'.all.size := by
  rcases Nat.eq_zero_or_pos s.all.size with h0 | hpos
  · omega
  · have hlast : s.all[s.all.size - 1]? = some s.all[s.all.size - 1] := Array.getElem?_eq_getElem (by omega)
    obtain ⟨scope', hs', -⟩ := h _ _ hlast
    have := (Array.getElem?_eq_some_iff.mp hs').1
    omega

/-! ## Looking up -/

theorem holderWithin?_succ (s : Scopes) (name : Bytes) (bound : Nat) {scope : Scope} (h : s.all[id]? = some scope) :
    s.holderWithin? name (bound + 1) id =
      if scope.bindings.contains name then some id else scope.enclosing.bind (s.holderWithin? name bound) := by
  simp only [holderWithin?, h]
  split
  · rfl
  · cases scope.enclosing <;> rfl

/-- Any bound above the number of the scope is as good as another. -/
theorem holderWithin?_bound (hs : s.Ordered) (b b' : Nat) (hb : id < b) (hb' : id < b') :
    s.holderWithin? name b id = s.holderWithin? name b' id := by
  induction b generalizing b' id with
  | zero => omega
  | succ b ih =>
    obtain ⟨b', rfl⟩ : ∃ k, b' = k + 1 := ⟨b' - 1, by omega⟩
    rcases hid : s.all[id]? with _ | scope
    · simp only [holderWithin?, hid]
    · rw [holderWithin?_succ s name b hid, holderWithin?_succ s name b' hid]
      rcases henc : scope.enclosing with _ | outer
      · rfl
      · have ho := hs id scope outer hid henc
        simp only [Option.bind_some, ih b' (Nat.lt_of_lt_of_le ho (Nat.le_of_lt_succ hb))
          (Nat.lt_of_lt_of_le ho (Nat.le_of_lt_succ hb'))]

/-- The way outwards, one scope at a time. -/
theorem holder?_eq (hs : s.Ordered) {scope : Scope} (h : s.all[id]? = some scope) (name : Bytes) :
    s.holder? id name =
      if scope.bindings.contains name then some id else scope.enclosing.bind fun outer => s.holder? outer name := by
  rw [holder?, holderWithin?_succ s name id h]
  cases henc : scope.enclosing with
  | none => rfl
  | some outer =>
    have hbound : s.holderWithin? name id outer = s.holder? outer name :=
      holderWithin?_bound hs id (outer + 1) (hs id scope outer h henc) (Nat.lt_succ_self outer)
    simp only [Option.bind_some, hbound]

/-- The scope that is found to bind a name has a binding for it. -/
theorem holderWithin?_contains {bound holder : Nat} (h : s.holderWithin? name bound id = some holder) :
    ∃ scope, s.all[holder]? = some scope ∧ scope.bindings.contains name = true := by
  induction bound generalizing id with
  | zero => cases h
  | succ bound ih =>
    rcases hid : s.all[id]? with _ | scope
    · rw [holderWithin?, hid] at h
      cases h
    · rw [holderWithin?_succ s name bound hid] at h
      split at h
      · rename_i hcontains
        cases h
        exact ⟨scope, hid, hcontains⟩
      · obtain ⟨outer, -, houter⟩ := Option.bind_eq_some_iff.mp h
        exact ih houter

/-- The reserved words stay bound where they were. -/
theorem Extends.holderWithin? (h : s.Extends s') (hs : s.Ordered) (hn : Reserved name) (bound : Nat)
    (hid : id < s.all.size) : s'.holderWithin? name bound id = s.holderWithin? name bound id := by
  induction bound generalizing id with
  | zero => rfl
  | succ bound ih =>
    have hscope : s.all[id]? = some s.all[id] := Array.getElem?_eq_getElem hid
    obtain ⟨scope', hscope', henc, hget⟩ := h id _ hscope
    have hcontains : scope'.bindings.contains name = s.all[id].bindings.contains name := by
      simp only [Table.contains, hget name hn]
    rw [holderWithin?_succ s name bound hscope, holderWithin?_succ s' name bound hscope', henc, hcontains]
    rcases henc' : s.all[id].enclosing with _ | outer
    · rfl
    · have ho := hs id _ outer hscope henc'
      simp only [Option.bind_some, ih (Nat.lt_trans ho hid)]

/-- The receiver and the superclass that a scope knows stay. -/
theorem Extends.get? (h : s.Extends s') (hs : s.Ordered) (hn : Reserved name) {value : Value}
    (hv : s.get? id name = some value) : s'.get? id name = some value := by
  simp only [Scopes.get?, holder?] at hv ⊢
  rcases hid : s.all[id]? with _ | scope
  · simp [Scopes.holderWithin?, hid] at hv
  · have hlt : id < s.all.size := (Array.getElem?_eq_some_iff.mp hid).1
    rw [h.holderWithin? hs hn _ hlt]
    obtain ⟨holder, hholder, hown⟩ := Option.bind_eq_some_iff.mp hv
    rw [hholder]
    simp only [Option.bind_some, own?] at hown ⊢
    obtain ⟨scope', hscope', hget⟩ := Option.bind_eq_some_iff.mp hown
    obtain ⟨scope'', hscope'', -, hsame⟩ := h holder scope' hscope'
    rw [hscope'', Option.bind_some, hsame name hn, hget]

/-! ## New scopes -/

theorem getElem?_push (s : Scopes) (scope : Scope) (hid : id < s.all.size) : (s.push scope).all[id]? = s.all[id]? := by
  simp only [push, Array.getElem?_push]
  rw [if_neg (by omega)]

theorem push_extends (s : Scopes) (scope : Scope) : s.Extends (s.push scope) :=
  fun _ old hold => ⟨old, push_keeps scope hold, rfl, fun _ _ => rfl⟩

theorem getElem?_push_next (s : Scopes) (scope : Scope) : (s.push scope).all[s.next]? = some scope := by
  simp [push, next]

/-- A scope can be made with its bindings, or made and then filled. -/
theorem define_push_next (s : Scopes) (scope : Scope) (name : Bytes) (value : Value) :
    (s.push scope).define s.next name value = s.push { scope with bindings := scope.bindings.insert name value } := by
  simp only [define, push, next, Scopes.mk.injEq]
  refine Array.ext_getElem? fun id => ?_
  rw [Array.getElem?_modify, Array.getElem?_push, Array.getElem?_push]
  by_cases hid : id = s.all.size
  · simp [hid]
  · simp [hid, Ne.symm hid]

theorem size_push (s : Scopes) (scope : Scope) : (s.push scope).all.size = s.all.size + 1 := by
  simp [push]

theorem push_ordered (hs : s.Ordered) (bindings : Table Value) (ho : outer < s.all.size) :
    (s.push ⟨some outer, bindings⟩).Ordered := by
  intro id scope outer' hid henc
  rcases push_cases hid with ⟨rfl, rfl⟩ | hold
  · cases henc
    exact ho
  · exact hs id scope outer' hold henc

/-- What a new scope itself binds. -/
theorem get?_push_own (s : Scopes) (bindings : Table Value) {value : Value} (h : bindings.get? name = some value) :
    (s.push ⟨some outer, bindings⟩).get? s.next name = some value := by
  have hnext := getElem?_push_next s ⟨some outer, bindings⟩
  have hcontains : bindings.contains name = true := by simp [Table.contains, h]
  simp only [get?, holder?, holderWithin?_succ _ name _ hnext, hcontains, if_true, Option.bind_some, own?, hnext, h]

/-- What a new scope takes from the one around it. -/
theorem get?_push_outer (hs : s.Ordered) (ho : outer < s.all.size) (bindings : Table Value)
    (h : bindings.get? name = none) (hn : Reserved name) {value : Value} (hv : s.get? outer name = some value) :
    (s.push ⟨some outer, bindings⟩).get? s.next name = some value := by
  have hordered := push_ordered hs bindings ho
  have hv' := (push_extends s ⟨some outer, bindings⟩).get? hs hn hv
  have hnext := getElem?_push_next s ⟨some outer, bindings⟩
  have hcontains : bindings.contains name = false := by simp [Table.contains, h]
  have hlt : outer < s.next := ho
  simp only [get?, holder?, holderWithin?_succ _ name _ hnext, hcontains, Bool.false_eq_true, if_false, Option.bind_some]
  rw [holderWithin?_bound hordered s.next (outer + 1) hlt (Nat.lt_succ_self _)]
  exact hv'

/-! ## New bindings -/

theorem getElem?_define (s : Scopes) (holder : Nat) (name : Bytes) (value : Value) (id : Nat) :
    (s.define holder name value).all[id]? =
      if holder = id then s.all[id]?.map fun scope => { scope with bindings := scope.bindings.insert name value }
      else s.all[id]? := by
  simp only [define, Array.getElem?_modify]

theorem own?_define_eq (s : Scopes) (holder id : Nat) (name other : Bytes) (value : Value) :
    (s.define holder name value).own? id other =
      if id = holder ∧ other = name then s.all[id]?.map fun _ => value else s.own? id other := by
  unfold own?
  rw [getElem?_define]
  by_cases hid : id = holder
  · subst hid
    rw [if_pos rfl]
    cases s.all[id]? with
    | none => simp
    | some scope =>
      simp only [Option.map_some, Option.bind_some, Table.get?_insert, true_and]
  · rw [if_neg (Ne.symm hid), if_neg fun h => hid h.1]

/-- Binding any other name leaves the reserved words alone. -/
theorem define_extends (s : Scopes) (holder : Nat) (value : Value) (hn : ¬ Reserved name) :
    s.Extends (s.define holder name value) := by
  intro id scope hid
  rw [getElem?_define]
  by_cases hh : holder = id
  · rw [if_pos hh, hid]
    refine ⟨_, rfl, rfl, fun other ho => ?_⟩
    rw [Table.get?_insert, if_neg]
    intro heq
    exact hn (heq ▸ ho)
  · rw [if_neg hh, hid]
    exact ⟨scope, rfl, rfl, fun _ _ => rfl⟩

theorem define_ordered (hs : s.Ordered) (holder : Nat) (name : Bytes) (value : Value) :
    (s.define holder name value).Ordered := by
  intro id scope outer hid henc
  rw [getElem?_define] at hid
  split at hid
  · obtain ⟨old, hold, rfl⟩ := Option.map_eq_some_iff.mp hid
    exact hs id old outer hold henc
  · exact hs id scope outer hid henc

/-- Parameters bind no reserved word. -/
theorem get?_bindAll (hn : Reserved name) (params : List Name) (args : List Value) (bindings : Table Value)
    (hp : ∀ p ∈ params, ¬ Reserved p.text) : (bindAll bindings params args).get? name = bindings.get? name := by
  induction params generalizing args bindings with
  | nil => rfl
  | cons p params ih =>
    cases args with
    | nil => rfl
    | cons a args =>
      rw [bindAll, ih args _ fun q hq => hp q (List.mem_cons_of_mem p hq), Table.get?_insert, if_neg]
      intro heq
      exact hp p List.mem_cons_self (heq ▸ hn)

end Scopes

end Lox
