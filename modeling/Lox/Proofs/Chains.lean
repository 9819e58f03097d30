/-
  Lox.Proofs.Chains — from scope to scope and from class to class. A scope lies within one that
  was made before it, and a class comes from one that was made before it; both links stay as they
  are, whatever the names come to stand for. So whoever follows them comes to an end, and that is
  how names and methods are looked for: a search is said here without any bound (`Search`), and
  what the bounded functions of the heap come to is what it comes to (`search_iff`). The methods
  of a class are the last ones that its declaration has under their names (`get?_methodTable`).
-/

import Lox.Proofs.Receivers
import Lox.Proofs.ScopeTree
import Mathlib.Data.List.Induction

namespace Lox

open Eval

/-! ## Searches along links -/

section

variable {α : Type} {found? f : Nat → Option α} {next? : Nat → Option Nat} {id : Nat} {chain : List Nat}

/-- A search from place to place, for as long as there is a link to follow. It ends where
something is found, or at a place without a link. -/
inductive Search (found? : Nat → Option α) (next? : Nat → Option Nat) : Nat → Option α → Prop
  | found {id : Nat} {a : α} : found? id = some a → Search found? next? id (some a)
  | ended {id : Nat} : found? id = none → next? id = none → Search found? next? id none
  | onward {id next : Nat} {result : Option α} : found? id = none → next? id = some next →
      Search found? next? next result → Search found? next? id result

/-- All places on the way, up to the one without a link. -/
inductive Chain (next? : Nat → Option Nat) : Nat → List Nat → Prop
  | last {id : Nat} : next? id = none → Chain next? id [id]
  | link {id next : Nat} {chain : List Nat} : next? id = some next → Chain next? next chain → Chain next? id (id :: chain)

theorem Search.unique {r r' : Option α} (h : Search found? next? id r) (h' : Search found? next? id r') : r = r' := by
  induction h with
  | found ha =>
    cases h' with
    | found ha' => exact ha.symm.trans ha'
    | ended hnone => cases ha.symm.trans hnone
    | onward hnone => cases ha.symm.trans hnone
  | ended hnone hlast =>
    cases h' with
    | found ha => cases ha.symm.trans hnone
    | ended => rfl
    | onward _ hnext => cases hlast.symm.trans hnext
  | onward hnone hnext _ ih =>
    cases h' with
    | found ha => cases ha.symm.trans hnone
    | ended _ hlast => cases hlast.symm.trans hnext
    | onward _ hnext' h' =>
      cases hnext.symm.trans hnext'
      exact ih h'

theorem Chain.unique {chain' : List Nat} (h : Chain next? id chain) (h' : Chain next? id chain') : chain = chain' := by
  induction h generalizing chain' with
  | last hlast =>
    cases h' with
    | last => rfl
    | link hnext => cases hlast.symm.trans hnext
  | link hnext _ ih =>
    cases h' with
    | last hlast => cases hlast.symm.trans hnext
    | link hnext' h' =>
      cases hnext.symm.trans hnext'
      rw [ih h']

/-- What goes on from place to place in the same way is what is first found on the way. -/
theorem Chain.eq_findSome? (hf : ∀ id, f id = (found? id).or ((next? id).bind f)) (h : Chain next? id chain) :
    f id = chain.findSome? found? := by
  induction h with
  | @last id hlast =>
    rw [hf, hlast, List.findSome?_cons]
    cases found? id <;> rfl
  | @link id next chain hnext _ ih =>
    rw [hf, hnext, Option.bind_some, ih, List.findSome?_cons]
    cases found? id <;> rfl

variable (hnext : ∀ id next, next? id = some next → next < id)

include hnext

/-- If every link leads to less, the way comes to an end. -/
theorem exists_chain (id : Nat) : ∃ chain, Chain next? id chain := by
  induction id using Nat.strongRecOn with
  | ind id ih =>
    cases hid : next? id with
    | none => exact ⟨[id], .last hid⟩
    | some next =>
      obtain ⟨chain, hchain⟩ := ih next (hnext id next hid)
      exact ⟨id :: chain, .link hid hchain⟩

/-- Where links lead down, the search ends, and with what such a function gives. -/
theorem search_iff (hf : ∀ id, f id = (found? id).or ((next? id).bind f)) (id : Nat) (r : Option α) :
    Search found? next? id r ↔ r = f id := by
  have hends : Search found? next? id (f id) := by
    induction id using Nat.strongRecOn with
    | ind id ih =>
      rw [hf]
      cases hfound : found? id with
      | some a => exact .found hfound
      | none =>
        cases hid : next? id with
        | none => exact .ended hfound hid
        | some next => exact .onward hfound hid (ih next (hnext id next hid))
  constructor
  · intro h
    exact h.unique hends
  · rintro rfl
    exact hends

end

/-! ## Scopes -/

namespace Scopes

variable {s : Scopes} {id : ScopeId} {name : Bytes}

def outer? (s : Scopes) (id : ScopeId) : Option ScopeId := s.all[id]?.bind Scope.enclosing

theorem Ordered.outer?_lt (hs : s.Ordered) {id outer : ScopeId} (h : s.outer? id = some outer) : outer < id := by
  obtain ⟨scope, hscope, henclosing⟩ := Option.bind_eq_some_iff.mp h
  exact hs id scope outer hscope henclosing

theorem holder?_of_own {value : Value} (h : s.own? id name = some value) : s.holder? id name = some id := by
  obtain ⟨scope, hscope, -⟩ := own?_eq_some.mp h
  rw [holder?, holderWithin?_succ s name id hscope, contains_iff_own hscope, h]
  rfl

theorem holder?_of_not_own (hs : s.Ordered) (h : s.own? id name = none) :
    s.holder? id name = (s.outer? id).bind (s.holder? · name) := by
  cases hscope : s.all[id]? with
  | none => simp [holder?, holderWithin?, outer?, hscope]
  | some scope =>
    rw [holder?_eq hs hscope, contains_iff_own hscope, h, outer?, hscope]
    rfl

/-- A name means what the scope binds it to, or else what it means around the scope. -/
theorem get?_eq_or (hs : s.Ordered) (name : Bytes) (id : ScopeId) :
    s.get? id name = (s.own? id name).or ((s.outer? id).bind (s.get? · name)) := by
  cases hown : s.own? id name with
  | some value => rw [get?_of_own hown, Option.some_or]
  | none =>
    unfold get?
    rw [holder?_of_not_own hs hown, Option.bind_assoc, Option.none_or]

/-- An assignment goes to the same scope that a lookup finds. -/
theorem assign?_eq_or (hs : s.Ordered) (name : Bytes) (value : Value) (id : ScopeId) :
    s.assign? id name value =
      ((s.own? id name).map fun _ => s.define id name value).or ((s.outer? id).bind (s.assign? · name value)) := by
  cases hown : s.own? id name with
  | some old => rw [assign?, holder?_of_own hown, Option.map_some, Option.map_some, Option.some_or]
  | none =>
    unfold assign?
    rw [holder?_of_not_own hs hown, Option.map_bind, Option.map_none, Option.none_or]
    rfl

end Scopes

/-! ## Classes -/

namespace Heap

variable {h h' : Heap} {id : Nat} {name : Bytes}

def parent? (h : Heap) (id : ClassId) : Option ClassId := h.classes[id]?.bind ClassInfo.superclass

def ownMethod? (h : Heap) (id : ClassId) (name : Bytes) : Option Closure :=
  h.classes[id]?.bind fun info => info.methods.get? name

/-- The method is that of the first class in the chain that itself has one under the name. -/
def Nearest (h : Heap) (chain : List ClassId) (name : Bytes) (c : Closure) : Prop :=
  ∃ before home after, chain = before ++ home :: after ∧ h.ownMethod? home name = some c ∧
    ∀ nearer ∈ before, h.ownMethod? nearer name = none

structure LinksBack (h : Heap) : Prop where
  scopes : ∀ id outer : Nat, h.scopes.outer? id = some outer → outer < id
  classes : ∀ id parent : Nat, h.parent? id = some parent → parent < id

theorem methodWithin?_succ (h : Heap) (name : Bytes) (bound : Nat) (id : ClassId) :
    h.methodWithin? name (bound + 1) id = (h.ownMethod? id name).or ((h.parent? id).bind (h.methodWithin? name bound)) := by
  rw [methodWithin?, ownMethod?, parent?]
  cases h.classes[id]? with
  | none => rfl
  | some info =>
    dsimp only [Option.bind_some]
    cases info.methods.get? name with
    | some method => rfl
    | none => cases info.superclass <;> rfl

/-- Any bound above the number of the class is as good as another. -/
theorem methodWithin?_bound (hl : h.LinksBack) (b b' : Nat) (hb : id < b) (hb' : id < b') :
    h.methodWithin? name b id = h.methodWithin? name b' id := by
  induction b generalizing b' id with
  | zero => omega
  | succ b ih =>
    obtain ⟨b', rfl⟩ : ∃ k, b' = k + 1 := ⟨b' - 1, by omega⟩
    rw [methodWithin?_succ h name b, methodWithin?_succ h name b']
    cases hparent : h.parent? id with
    | none => rfl
    | some parent =>
      have hlt := hl.classes id parent hparent
      rw [Option.bind_some, Option.bind_some, ih b' (by omega) (by omega)]

theorem method?_eq_or (hl : h.LinksBack) (name : Bytes) (id : ClassId) :
    h.method? id name = (h.ownMethod? id name).or ((h.parent? id).bind (h.method? · name)) := by
  rw [method?, methodWithin?_succ]
  cases hparent : h.parent? id with
  | none => rfl
  | some parent =>
    rw [Option.bind_some, Option.bind_some, method?]
    rw [methodWithin?_bound hl id (parent + 1) (hl.classes id parent hparent) (Nat.lt_succ_self parent)]

/-- Methods are found at the first class of the chain that has one. -/
theorem method?_eq_findSome? (hl : h.LinksBack) {chain : List ClassId} (hchain : Chain h.parent? id chain) (name : Bytes) :
    h.method? id name = chain.findSome? (h.ownMethod? · name) :=
  Chain.eq_findSome? (f := (h.method? · name)) (method?_eq_or hl name) hchain

/-- Every scope and every class is still there, the scope within the same one as before and the
class as it was, with its superclass and its methods. -/
structure KeepsLinks (h h' : Heap) : Prop where
  scopes : ∀ id < h.scopes.next, id < h'.scopes.next ∧ h'.scopes.outer? id = h.scopes.outer? id
  classes : ∀ id < h.classes.size, h'.classes[id]? = h.classes[id]?

theorem Grows.keepsLinks (hg : h.Grows h') : h.KeepsLinks h' := by
  refine ⟨fun id hid => ?_, fun id hid => ?_⟩
  · have hscope : h.scopes.all[id]? = some h.scopes.all[id] := Array.getElem?_eq_getElem hid
    obtain ⟨scope', hscope', henclosing, -⟩ := hg.kept.scopes id _ hscope
    refine ⟨(Array.getElem?_eq_some_iff.mp hscope').1, ?_⟩
    rw [Scopes.outer?, Scopes.outer?, hscope, hscope', Option.bind_some, Option.bind_some, henclosing]
  · have hinfo : h.classes[id]? = some h.classes[id] := Array.getElem?_eq_getElem hid
    rw [hinfo]
    exact hg.kept.classes id _ hinfo

/-- Links that have been kept led back before, too. -/
theorem KeepsLinks.linksBack (hk : h.KeepsLinks h') (hl : h'.LinksBack) : h.LinksBack := by
  refine ⟨fun id outer houter => ?_, fun id parent hparent => ?_⟩
  · obtain ⟨scope, hscope, -⟩ := Option.bind_eq_some_iff.mp houter
    refine hl.scopes id outer ?_
    rw [(hk.scopes id (Array.getElem?_eq_some_iff.mp hscope).1).2, houter]
  · obtain ⟨info, hinfo, -⟩ := Option.bind_eq_some_iff.mp hparent
    refine hl.classes id parent ?_
    rw [parent?, hk.classes id (Array.getElem?_eq_some_iff.mp hinfo).1]
    exact hparent

theorem LinksBack.ordered (hl : h.LinksBack) : h.scopes.Ordered := by
  intro id scope outer hscope henclosing
  refine hl.scopes id outer ?_
  rw [Scopes.outer?, hscope]
  exact henclosing

end Heap

/-! ## Class declarations -/

def lastNamed (methods : List FunctionDecl) (name : Bytes) : Option FunctionDecl :=
  methods.reverse.find? fun d => d.name.text == name

/-- Of several methods under one name, the last one counts. -/
theorem get?_methodTable (scope : ScopeId) (methods : List FunctionDecl) (name : Bytes) :
    (methodTable scope methods).get? name =
      (lastNamed methods name).map fun d => ⟨d, scope, d.name.text == initializerName⟩ := by
  -- The table is filled from the first method on, so the last one decides.
  induction methods using List.reverseRecOn with
  | nil => rfl
  | append_singleton methods d ih =>
    have htable : methodTable scope (methods ++ [d]) =
        (methodTable scope methods).insert d.name.text ⟨d, scope, d.name.text == initializerName⟩ := by
      simp [methodTable]
    have hlast : lastNamed (methods ++ [d]) name = if name = d.name.text then some d else lastNamed methods name := by
      unfold lastNamed
      rw [List.reverse_append, List.reverse_singleton, List.singleton_append, List.find?_cons]
      by_cases heq : name = d.name.text
      · simp [heq]
      · rw [if_neg heq, beq_eq_false_iff_ne.mpr (Ne.symm heq)]
    rw [htable, hlast, Table.get?_insert, ih]
    split <;> rfl

/-- A declaration with these methods makes the class, under this number, within the evaluation:
its superclass is what the clause comes to there. -/
def Evaluation.DeclaresClass (run : Evaluation) (id : ClassId) (info : ClassInfo) (methods : List FunctionDecl) : Prop :=
  ∃ n name clause m scope, Visits run ⟨n + 1, .stmt (.classDecl name clause methods), m⟩ ∧ id = m.heap.classes.size ∧
    superclass clause m = (.ok info.superclass, m) ∧ info.name = name.text ∧ info.methods = methodTable scope methods

def Machine.ClassesMade (Made : ClassId → ClassInfo → Prop) (m : Machine) : Prop :=
  ∀ (id : Nat) (info : ClassInfo), m.heap.classes[id]? = some info → Made id info

namespace Evaluation

variable {p run : Evaluation} {pool : List Value} {m m' : Machine}

theorem Acts.classes (h : p.Acts pool m m') {id : Nat} {info : ClassInfo} (hinfo : m'.heap.classes[id]? = some info) :
    m.heap.classes[id]? = some info ∨ ∃ methods, p.DeclaresClass id info methods := by
  cases h with
  | @classMade n name clause methods m₀ _ _ parent scope hparent hclasses =>
    rcases push_cases hinfo with ⟨hid, rfl⟩ | hold
    · rw [hclasses] at hid
      exact .inr ⟨methods, n, name, clause, m₀, scope, .here, hid, hparent, rfl, rfl⟩
    · exact .inl hold
  | _ => exact .inl hinfo

theorem DeclaresClass.of_visits {id : ClassId} {info : ClassInfo} {methods : List FunctionDecl} (hvisits : Visits run p)
    (h : p.DeclaresClass id info methods) : run.DeclaresClass id info methods := by
  obtain ⟨n, name, clause, m, scope, hdeclaration, hmade⟩ := h
  exact ⟨n, name, clause, m, scope, hvisits.trans hdeclaration, hmade⟩

theorem DeclaresClass.declaration {id : ClassId} {info : ClassInfo} {methods : List FunctionDecl}
    (h : run.DeclaresClass id info methods) (name : Bytes) :
    (info.methods.get? name).map Closure.declaration = lastNamed methods name := by
  obtain ⟨_, _, _, _, scope, -, -, -, -, hmethods⟩ := h
  rw [hmethods, get?_methodTable, Option.map_map]
  exact Option.map_id'

/-- Only declarations add classes, so every change keeps this. -/
theorem classesMade_invariant {Made : ClassId → ClassInfo → Prop}
    (hmade : ∀ id info methods, run.DeclaresClass id info methods → Made id info) :
    Invariant (Visits run) fun m _ => m.ClassesMade Made where
  acts := by
    intro p pool m m' hvisits hact hm id info hinfo
    rcases hact.classes hinfo with hold | ⟨methods, hdeclares⟩
    · exact hm id info hold
    · exact hmade id info methods (hdeclares.of_visits hvisits)
  found := fun hm _ => hm
  part := fun hvisits hpart _ => hvisits.part hpart

end Evaluation

namespace Session

variable {session : Session} {source : Bytes}

/-- A declaration with these methods, in an earlier run since the last reset, made the class. -/
def DeclaredClass (session : Session) (id : ClassId) (info : ClassInfo) (methods : List FunctionDecl) : Prop :=
  ∃ (earlier : Session) (fuel : Nat) (clock : Nat → Float) (source : Bytes),
    earlier.Reachable ∧ (analyze source).reports = [] ∧ (earlier.run fuel clock source).2.Before session ∧
      (earlier.evaluation fuel clock source).DeclaresClass id info methods

def MakesClass (session : Session) (run : Evaluation) (id : ClassId) (info : ClassInfo) (methods : List FunctionDecl) : Prop :=
  session.DeclaredClass id info methods ∨ run.DeclaresClass id info methods

theorem MakesClass.declaration {run : Evaluation} {id : ClassId} {info : ClassInfo} {methods : List FunctionDecl}
    (h : session.MakesClass run id info methods) (name : Bytes) :
    (info.methods.get? name).map Closure.declaration = lastNamed methods name := by
  rcases h with ⟨_, _, _, _, -, -, -, hdeclares⟩ | hdeclares
  · exact hdeclares.declaration name
  · exact hdeclares.declaration name

theorem DeclaredClass.run {id : ClassId} {info : ClassInfo} {methods : List FunctionDecl}
    (h : session.DeclaredClass id info methods) (fuel : Nat) (clock : Nat → Float) (source : Bytes) :
    (session.run fuel clock source).2.DeclaredClass id info methods := by
  obtain ⟨earlier, fuel₀, clock₀, source₀, hearlier, hvalid, hbefore, hdeclares⟩ := h
  exact ⟨earlier, fuel₀, clock₀, source₀, hearlier, hvalid, hbefore.run fuel clock source, hdeclares⟩

/-- Wherever a run gets to, classes were made by declarations, if they were at its start. -/
theorem visits_classesMade (fuel : Nat) (clock : Nat → Float)
    (h : ∀ (id : Nat) (info : ClassInfo), session.heap.classes[id]? = some info → ∃ methods, session.DeclaredClass id info methods)
    {e : Evaluation} (he : Visits (session.evaluation fuel clock source) e) :
    let Made := fun id info => ∃ methods, session.MakesClass (session.evaluation fuel clock source) id info methods
    e.machine.ClassesMade Made ∧ e.final.ClassesMade Made := by
  intro Made
  have hinvariant : Evaluation.Invariant (Visits (session.evaluation fuel clock source)) fun m _ => m.ClassesMade Made :=
    Evaluation.classesMade_invariant fun id info methods hdeclares => ⟨methods, .inr hdeclares⟩
  have hstart : (session.evaluation fuel clock source).machine.ClassesMade Made := by
    intro id info hinfo
    obtain ⟨methods, hdeclared⟩ := h id info hinfo
    exact ⟨methods, .inl hdeclared⟩
  exact (hinvariant.visits .here hstart he).2

theorem Reachable.declaredClass (hs : session.Reachable) {id : Nat} {info : ClassInfo}
    (hinfo : session.heap.classes[id]? = some info) : ∃ methods, session.DeclaredClass id info methods := by
  induction hs generalizing id info with
  | fresh => simp [Session.fresh, Heap.initial] at hinfo
  | reset => simp [Session.fresh, Heap.initial] at hinfo
  | @run session fuel clock source hs ih =>
    by_cases hsource : (analyze source).reports = []
    · rw [run_heap session fuel clock hsource] at hinfo
      obtain ⟨methods, hmade⟩ := (visits_classesMade fuel clock (fun _ _ => ih) .here).2 id info hinfo
      rcases hmade with hearlier | hdeclares
      · exact ⟨methods, hearlier.run fuel clock source⟩
      · exact ⟨methods, session, fuel, clock, source, hs, hsource, .here, hdeclares⟩
    · rw [session.run_of_fault fuel clock hsource] at hinfo
      obtain ⟨methods, hearlier⟩ := ih hinfo
      exact ⟨methods, hearlier.run fuel clock source⟩

/-- Whatever class there is in the course of a run, a declaration of this run or an earlier one
made it. -/
theorem Reachable.makesClass (hs : session.Reachable) (fuel : Nat) (clock : Nat → Float) {m : Machine}
    (hm : m ∈ (session.evaluation fuel clock source).trace) {id : Nat} {info : ClassInfo}
    (hinfo : m.heap.classes[id]? = some info) :
    ∃ methods, session.MakesClass (session.evaluation fuel clock source) id info methods := by
  obtain ⟨e, he, hm⟩ := Evaluation.mem_trace.mp hm
  obtain ⟨hmachine, hfinal⟩ := visits_classesMade fuel clock (fun _ _ => hs.declaredClass) he
  rcases hm with rfl | rfl
  · exact hmachine id info hinfo
  · exact hfinal id info hinfo

/-! ## Every state of every run -/

theorem Reachable.linksBack (hs : session.Reachable) : session.heap.LinksBack := by
  have hready := hs.ready fun _ => 0
  refine ⟨fun id outer houter => hready.stands.sound.ordered.outer?_lt houter, fun id parent hparent => ?_⟩
  obtain ⟨info, hinfo, hsuperclass⟩ := Option.bind_eq_some_iff.mp hparent
  exact hready.orderly.older id info parent hinfo hsuperclass

theorem Reachable.between_grows (hs : session.Reachable) (fuel : Nat) (clock : Nat → Float)
    (hsource : (analyze source).reports = []) :
    let run := session.evaluation fuel clock source
    Evaluation.Between (fun m m' => m.heap.Grows m'.heap) run.machine run.trace run.final :=
  Evaluation.between_grows (hs.evaluation_sound fuel clock hsource)

/-- The links of a state are still there when the run has ended, and lead back then. -/
theorem Reachable.trace_linksBack (hs : session.Reachable) (fuel : Nat) (clock : Nat → Float)
    (hsource : (analyze source).reports = []) {m : Machine} (hm : m ∈ (session.evaluation fuel clock source).trace) :
    m.heap.LinksBack := by
  have hkept : m.heap.KeepsLinks (session.run fuel clock source).2.heap := by
    rw [run_heap session fuel clock hsource]
    exact ((hs.between_grows fuel clock hsource).before m hm).keepsLinks
  exact hkept.linksBack (hs.run fuel clock source).linksBack

end Session

/-- In every state that a run comes to, scopes and classes lead to what was made before them, and
what they lead to and the methods of classes are the same in every later state, of the same run
and of all later ones. Looking a name up, assigning it and looking for a method are searches
along these links, which end. The method of a class is that of the nearest class in its chain
that has one, and there is none exactly if no class in the chain has one; what a class itself has
is the last method of the name in the declaration that made it. -/
theorem chains_lead_back {session : Session} (hs : session.Reachable) (fuel : Nat) (clock : Nat → Float)
    {source : Bytes} (hsource : (analyze source).reports = []) :
    let run := session.evaluation fuel clock source
    (∀ m ∈ run.trace, m.heap.LinksBack) ∧
    run.trace.Pairwise (fun m m' => m.heap.KeepsLinks m'.heap) ∧
    (∀ later : Session, (session.run fuel clock source).2.Before later →
      ∀ fuel' clock' source', (analyze source').reports = [] →
        ∀ m ∈ run.trace, ∀ m' ∈ (later.evaluation fuel' clock' source').trace, m.heap.KeepsLinks m'.heap) ∧
    (∀ m ∈ run.trace, let s := m.heap.scopes
      ∀ id name, (∀ r, Search (s.own? · name) s.outer? id r ↔ r = s.get? id name) ∧
        ∀ value r, Search (fun id => (s.own? id name).map fun _ => s.define id name value) s.outer? id r ↔
          r = s.assign? id name value) ∧
    (∀ m ∈ run.trace, let h := m.heap
      ∀ id, (∀ name r, Search (h.ownMethod? · name) h.parent? id r ↔ r = h.method? id name) ∧
        (∃! chain, Chain h.parent? id chain) ∧
        ∀ chain, Chain h.parent? id chain → ∀ name,
          (∀ c, h.method? id name = some c ↔ h.Nearest chain name c) ∧
          (h.method? id name = none ↔ ∀ other ∈ chain, h.ownMethod? other name = none)) ∧
    ∀ m ∈ run.trace, ∀ (id : Nat) (info : ClassInfo), m.heap.classes[id]? = some info →
      ∃ methods, session.MakesClass run id info methods ∧
        ∀ name, (m.heap.ownMethod? id name).map Closure.declaration = lastNamed methods name := by
  intro run
  have hback : ∀ m ∈ run.trace, m.heap.LinksBack := fun m hm => hs.trace_linksBack fuel clock hsource hm
  refine ⟨hback, (hs.between_grows fuel clock hsource).ordered.imp fun h => h.keepsLinks, ?_, ?_, ?_, ?_⟩
  · intro later hlater fuel' clock' source' hsource' m hm m' hm'
    have hgrows : m.heap.Grows m'.heap := hlater.traces (R := Heap.Grows) .refl (fun _ _ _ => .trans)
      (fun fuel clock _ hs hsource => hs.between_grows fuel clock hsource) hs hsource hsource' hm hm'
    exact hgrows.keepsLinks
  · intro m hm s id name
    have hordered : s.Ordered := (hback m hm).ordered
    refine ⟨fun r => search_iff (hback m hm).scopes (Scopes.get?_eq_or hordered name) id r, fun value r => ?_⟩
    exact search_iff (hback m hm).scopes (Scopes.assign?_eq_or hordered name value) id r
  · intro m hm h id
    have hl := hback m hm
    refine ⟨fun name r => search_iff hl.classes (Heap.method?_eq_or hl name) id r, ?_, fun chain hchain name => ?_⟩
    · obtain ⟨chain, hchain⟩ := exists_chain hl.classes id
      exact ⟨chain, hchain, fun chain' hchain' => hchain'.unique hchain⟩
    · rw [Heap.method?_eq_findSome? hl hchain]
      exact ⟨fun c => List.findSome?_eq_some_iff, List.findSome?_eq_none_iff⟩
  · intro m hm id info hinfo
    obtain ⟨methods, hmade⟩ := hs.makesClass fuel clock hm hinfo
    refine ⟨methods, hmade, fun name => ?_⟩
    rw [Heap.ownMethod?, hinfo]
    exact hmade.declaration name

/-- A class is declared under the name of the class that its superclass comes from. That class
has two methods of one name, and the last one takes no argument. -/
def redeclaredText : Bytes := utf8 "class A\x7bm(a)\x7b\x7d m()\x7b\x7d\x7d class B<A\x7b\x7d class A<B\x7b\x7d A().m();"

/-- The new class stands above the other two, and has the last method of the first. -/
theorem chains_lead_back_redeclared :
    let run := Session.fresh.evaluation 40 (fun _ => 0) redeclaredText
    let h := run.final.heap
    (analyze redeclaredText).reports = [] ∧ run.outcome.1.isOk = true ∧
      (h.classes.toList.map fun info => (info.name, info.superclass)) =
        [(utf8 "A", none), (utf8 "B", some 0), (utf8 "A", some 1)] ∧
      h.LinksBack ∧ Chain h.parent? 2 [2, 1, 0] ∧
      ∃ c, Search (h.ownMethod? · (utf8 "m")) h.parent? 2 (some c) ∧ h.Nearest [2, 1, 0] (utf8 "m") c ∧ c.arity = 0 := by
  intro run h
  have hsource : (analyze redeclaredText).reports = [] := by decide +kernel
  have hmem : run.final ∈ run.trace := Evaluation.mem_trace.mpr ⟨run, .here, .inr rfl⟩
  have hchain : Chain h.parent? 2 [2, 1, 0] :=
    .link (by decide +kernel) (.link (by decide +kernel) (.last (by decide +kernel)))
  have harity : (h.method? 2 (utf8 "m")).map Closure.arity = some 0 := by decide +kernel
  obtain ⟨c, hc, hnone⟩ := Option.map_eq_some_iff.mp harity
  obtain ⟨hback, -, -, -, hmethods, -⟩ := chains_lead_back .fresh 40 (fun _ => 0) hsource
  obtain ⟨hsearch, -, hnearest⟩ := hmethods run.final hmem 2
  exact ⟨hsource, by decide +kernel, by decide +kernel, hback run.final hmem, hchain, c,
    (hsearch (utf8 "m") (some c)).mpr hc.symm, ((hnearest _ hchain (utf8 "m")).1 c).mp hc, hnone⟩

end Lox
