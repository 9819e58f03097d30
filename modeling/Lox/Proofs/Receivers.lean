/-
  Lox.Proofs.Receivers — no method is ever without its receiver. In every run of every session,
  each function that is held, passed or produced was made by a declaration, or is a method in a
  scope of its own that binds the receiver to an object, for good. So a class call that ends
  yields a new object of that very class, and a call of an initializer that ends yields the
  receiver, whatever the initializer does (`no_unbound_method_escapes`).
-/

import Lox.Proofs.Eval.Receivers
import Lox.Proofs.Session.Later

namespace Lox

open Eval

/-- If the value is a function then it exists, and either it was made by a declaration and is no
initializer, or it is a method bound to an object. -/
def Heap.Accounts (h : Heap) (Made : FunctionId → Closure → Prop) (v : Value) : Prop :=
  ∀ id, v = .function id → ∃ c, h.functions[id]? = some c ∧
    (Made id c ∧ c.isInitializer = false ∨
      ∃ method object, h.Bound c method object ∧ (Value.object object).Backed h)

def Heap.KeepsReceivers (h h' : Heap) : Prop :=
  ∀ (id : Nat) (c : Closure) (object : ObjectId), h.functions[id]? = some c →
    h.scopes.own? c.scope thisName = some (.object object) →
      h'.functions[id]? = some c ∧ h'.scopes.own? c.scope thisName = some (.object object)

theorem Heap.Grows.keepsReceivers {h h' : Heap} (hg : h.Grows h') : h.KeepsReceivers h' :=
  fun id c _ hc hown => ⟨hg.functions id c hc, hg.own? hown⟩

theorem Evaluation.Declares.not_initializer {run : Evaluation} {id : FunctionId} {c : Closure} (h : run.Declares id c) :
    c.isInitializer = false := by
  obtain ⟨n, d, m, -, -, rfl⟩ := h
  rfl

namespace Session

variable {session : Session} {source : Bytes}

def Declares (session : Session) (id : FunctionId) (c : Closure) : Prop :=
  ∃ (earlier : Session) (fuel : Nat) (clock : Nat → Float) (source : Bytes),
    earlier.Reachable ∧ (analyze source).reports = [] ∧
      (earlier.run fuel clock source).2.Before session ∧ (earlier.evaluation fuel clock source).Declares id c

theorem Declares.not_initializer {id : FunctionId} {c : Closure} (h : session.Declares id c) : c.isInitializer = false := by
  obtain ⟨_, _, _, _, -, -, -, hdeclares⟩ := h
  exact hdeclares.not_initializer

/-- What has made the functions that there are in the course of a run. -/
def Made (session : Session) (run : Evaluation) (id : FunctionId) (c : Closure) : Prop :=
  session.Declares id c ∨ run.Declares id c

theorem Made.not_initializer {run : Evaluation} {id : FunctionId} {c : Closure} (h : session.Made run id c) :
    c.isInitializer = false := by
  rcases h with h | h
  · exact h.not_initializer
  · exact h.not_initializer

/-- A run of a session whose heap is upright is upright wherever it gets to. -/
theorem visits_upright (hs : session.Reachable) (fuel : Nat) {clock : Nat → Float} (hsource : (analyze source).reports = [])
    (h : Machine.Upright session.Declares { heap := session.heap, clock } []) {e : Evaluation}
    (he : Visits (session.evaluation fuel clock source) e) :
    e.machine.Upright (session.Made (session.evaluation fuel clock source)) e.given ∧
      e.final.Upright (session.Made (session.evaluation fuel clock source)) (Evaluation.yielded e.outcome) := by
  have hinvariant : Evaluation.Invariant (fun p => Visits (session.evaluation fuel clock source) p ∧ p.Sound)
      (Machine.Upright (session.Made (session.evaluation fuel clock source))) :=
    Evaluation.upright_invariant fun _ _ => .inr
  have hstart : Machine.Upright (session.Made (session.evaluation fuel clock source)) { heap := session.heap, clock } [] :=
    ⟨h.held, h.live, fun id c hc => (h.functions id c hc).imp_left .inl⟩
  exact (hinvariant.visits ⟨.here, hs.evaluation_sound fuel clock hsource⟩ hstart he).2

theorem initial_upright (clock : Nat → Float) (Made : FunctionId → Closure → Prop) :
    Machine.Upright Made { heap := Heap.initial, clock } [] := by
  refine ⟨fun v hv => ?_, fun v hv => absurd hv List.not_mem_nil, fun id c hc => ?_⟩
  · rcases hv with ⟨id, name, hown⟩ | ⟨id, object, name, hobject, -⟩
    · -- The only binding is that of the clock.
      cases id with
      | zero =>
        have hget : (Table.empty.insert Heap.clockName Value.clock).get? name = some v := hown
        rw [Table.get?_insert] at hget
        split at hget
        · cases hget
          trivial
        · cases hget
      | succ id => simp [Scopes.own?, Heap.initial] at hown
    · simp [Heap.initial] at hobject
  · simp [Heap.initial] at hc

theorem Reachable.upright (h : session.Reachable) (clock : Nat → Float) :
    Machine.Upright session.Declares { heap := session.heap, clock } [] := by
  induction h generalizing clock with
  | fresh => exact initial_upright clock _
  | reset => exact initial_upright clock _
  | @run session fuel clock' source hs ih =>
    -- What an earlier run declared, it still has declared one run later.
    have hmore {id : FunctionId} {c : Closure} (hd : session.Declares id c) :
        (session.run fuel clock' source).2.Declares id c := by
      obtain ⟨earlier, fuel₀, clock₀, source₀, hearlier, hvalid, hbefore, hdeclares⟩ := hd
      exact ⟨earlier, fuel₀, clock₀, source₀, hearlier, hvalid, hbefore.run fuel clock' source, hdeclares⟩
    by_cases hsource : (analyze source).reports = []
    · have hfinal := (visits_upright hs fuel hsource (ih clock') .here).2
      have hheap := run_heap session fuel clock' hsource
      refine ⟨?_, fun v hv => absurd hv List.not_mem_nil, ?_⟩
      · rw [hheap]
        exact hfinal.held
      · rw [hheap]
        intro id c hc
        refine (hfinal.functions id c hc).imp_left fun hmade => ?_
        rcases hmade with hd | hd
        · exact hmore hd
        · exact ⟨session, fuel, clock', source, hs, hsource, .here, hd⟩
    · have hsame := session.run_of_fault fuel clock' hsource
      refine ⟨?_, fun v hv => absurd hv List.not_mem_nil, ?_⟩
      · rw [hsame]
        exact (ih clock).held
      · intro id c hc
        rw [hsame] at hc ⊢
        exact (ih clock).functions id c hc

end Session

/-- Where the heap is upright, it accounts for every value that refers to what exists. -/
theorem Machine.Upright.accounts {session : Session} {run : Evaluation} {m : Machine} {live : List Value}
    (h : m.Upright (session.Made run) live) {v : Value} (hv : v.Backed m.heap) : m.heap.Accounts (session.Made run) v := by
  rintro id rfl
  obtain ⟨c, hc⟩ := hv
  refine ⟨c, hc, ?_⟩
  rcases h.functions id c hc with hmade | ⟨method, object, hbound⟩
  · exact .inl ⟨hmade, hmade.not_initializer⟩
  · exact .inr ⟨method, object, hbound, h.held _ (.inl ⟨_, _, hbound.receiver⟩)⟩

/-- Every function value that a scope or a field holds, that is passed, called or produced is
accounted for. Receivers stay what they are, for the rest of the session. A class call that
ends yields an object that is new and of exactly that class, and a call of an initializer that
ends yields its receiver. -/
theorem no_unbound_method_escapes {session : Session} (hs : session.Reachable) (fuel : Nat) (clock : Nat → Float)
    {source : Bytes} (hsource : (analyze source).reports = []) :
    let run := session.evaluation fuel clock source
    (∀ m ∈ run.trace, ∀ v, m.heap.Holds v → m.heap.Accounts (session.Made run) v) ∧
    (∀ e, Visits run e → (∀ v ∈ e.given, e.machine.heap.Accounts (session.Made run) v) ∧
      ∀ v ∈ Evaluation.yielded e.outcome, e.final.heap.Accounts (session.Made run) v) ∧
    run.trace.Pairwise (fun m m' => m.heap.KeepsReceivers m'.heap) ∧
    (∀ later : Session, (session.run fuel clock source).2.Before later →
      ∀ fuel' clock' source', (analyze source').reports = [] →
        ∀ m ∈ run.trace, ∀ m' ∈ (later.evaluation fuel' clock' source').trace, m.heap.KeepsReceivers m'.heap) ∧
    (∀ n id args m v m', Visits run ⟨n, .call (.classRef id) args, m⟩ →
      callValue n (.classRef id) args m = (.ok v, m') →
        ∃ number object, v = .object number ∧ m.heap.objects[number]? = none ∧
          m'.heap.objects[number]? = some object ∧ object.classId = id) ∧
    ∀ n id args m v m' c, Visits run ⟨n, .call (.function id) args, m⟩ → m.heap.functions[id]? = some c →
      c.isInitializer = true → callValue n (.function id) args m = (.ok v, m') →
        ∃ object, m.heap.scopes.own? c.scope thisName = some (.object object) ∧ v = .object object := by
  intro run
  have hsound := hs.evaluation_sound fuel clock hsource
  have hupright {e : Evaluation} (he : Visits run e) := Session.visits_upright hs fuel hsource (hs.upright clock) he
  have hgrows {session : Session} (fuel : Nat) (clock : Nat → Float) {source : Bytes} (hs : session.Reachable)
      (hsource : (analyze source).reports = []) := Evaluation.between_grows (hs.evaluation_sound fuel clock hsource)
  refine ⟨fun m hm v hv => ?_, fun e he => ?_, ?_, ?_, ?_, ?_⟩
  · obtain ⟨e, he, hm⟩ := Evaluation.mem_trace.mp hm
    rcases hm with rfl | rfl
    · exact (hupright he).1.accounts ((hupright he).1.held v hv)
    · exact (hupright he).2.accounts ((hupright he).2.held v hv)
  · exact ⟨fun v hv => (hupright he).1.accounts ((hupright he).1.live v hv),
      fun v hv => (hupright he).2.accounts ((hupright he).2.live v hv)⟩
  · exact (hgrows fuel clock hs hsource).ordered.imp fun h => h.keepsReceivers
  · intro later hlater fuel' clock' source' hsource' m hm m' hm'
    exact (hlater.traces (R := Heap.Grows) .refl (fun _ _ _ => .trans) hgrows hs hsource hsource' hm hm').keepsReceivers
  · intro n id args m v m' he hcall
    obtain ⟨rfl, object, hobject, hclass⟩ := Evaluation.callValue_object (he.sound hsound) hcall
    exact ⟨_, object, rfl, Array.getElem?_eq_none (Nat.le_refl _), hobject, hclass⟩
  · intro n id args m v m' c he hc hinit hcall
    cases n with
    | zero => cases hcall
    | succ n =>
      rcases (hupright he).1.functions id c hc with hmade | ⟨method, object, hbound⟩
      · cases hinit.symm.trans hmade.not_initializer
      · have hpart : Part ⟨n + 1, .call (.function id) args, m⟩ ⟨n, .closure c args, m⟩ := .function hc
        rw [callValue, get_bind, hc] at hcall
        exact ⟨object, hbound.receiver,
          Evaluation.callClosure_initializer (hpart.sound (he.sound hsound)) hinit hbound.receiver hcall⟩

def Evaluation.endedClassCall? : Evaluation → Option ClassId
  | ⟨n, .call (.classRef id) args, m⟩ => (callValue n (.classRef id) args m).1.toOption.map fun _ => id
  | _ => none

/-- Whether it is an initializer, where a function is called and the call ends. -/
def Evaluation.endedCall? : Evaluation → Option Bool
  | ⟨n, .call (.function id) args, m⟩ =>
    (callValue n (.function id) args m).1.toOption.bind fun _ => m.heap.functions[id]?.map (·.isInitializer)
  | _ => none

/-- A class with an inherited initializer, which returns early and is called once more later. -/
def inheritedInitializerText : Bytes :=
  utf8 "class A \x7b init(x) \x7b this.x = x; return; \x7d \x7d class B < A \x7b\x7d var b = B(\"one\"); var i = b.init; i(\"two\");"

/-- The class call makes a new object of the second class, and the later call yields its receiver. -/
theorem no_unbound_method_escapes_inherited_initializer :
    (analyze inheritedInitializerText).reports = [] ∧
    (∃ n args m number object,
      Visits (Session.fresh.evaluation 20 (fun _ => 0) inheritedInitializerText) ⟨n, .call (.classRef 1) args, m⟩ ∧
      (callValue n (.classRef 1) args m).1 = .ok (.object number) ∧ m.heap.objects[number]? = none ∧
      (callValue n (.classRef 1) args m).2.heap.objects[number]? = some object ∧ object.classId = 1) ∧
    ∃ n id args m c object,
      Visits (Session.fresh.evaluation 20 (fun _ => 0) inheritedInitializerText) ⟨n, .call (.function id) args, m⟩ ∧
      m.heap.functions[id]? = some c ∧ c.isInitializer = true ∧
      m.heap.scopes.own? c.scope thisName = some (.object object) ∧
      (callValue n (.function id) args m).1 = .ok (.object object) := by
  have hsource : (analyze inheritedInitializerText).reports = [] := by decide +kernel
  have hclass : ((Session.fresh.evaluation 20 (fun _ => 0) inheritedInitializerText).descend [1, 1, 0, 0, 2]).bind
      Evaluation.endedClassCall? = some 1 := by decide +kernel
  have hinit : ((Session.fresh.evaluation 20 (fun _ => 0) inheritedInitializerText).descend [1, 1, 1, 1, 0, 0, 2]).bind
      Evaluation.endedCall? = some true := by decide +kernel
  obtain ⟨-, -, -, -, hclassCalls, hcalls⟩ := no_unbound_method_escapes .fresh 20 (fun _ => 0) hsource
  refine ⟨hsource, ?_, ?_⟩
  · obtain ⟨e, he, hended⟩ := Option.bind_eq_some_iff.mp hclass
    have hvisits := Evaluation.descend_visits he
    unfold Evaluation.endedClassCall? at hended
    split at hended
    · rename_i n id args m
      rcases hcall : callValue n (.classRef id) args m with ⟨_ | v, m'⟩
      · rw [hcall] at hended
        cases hended
      · rw [hcall] at hended
        cases hended
        obtain ⟨number, object, rfl, hnew, hobject, hid⟩ := hclassCalls n 1 args m v m' hvisits hcall
        refine ⟨n, args, m, number, object, hvisits, ?_, hnew, ?_, hid⟩
        · rw [hcall]
        · rw [hcall]
          exact hobject
    · cases hended
  · obtain ⟨e, he, hended⟩ := Option.bind_eq_some_iff.mp hinit
    have hvisits := Evaluation.descend_visits he
    unfold Evaluation.endedCall? at hended
    split at hended
    · rename_i n id args m
      obtain ⟨v, hok, hc⟩ := Option.bind_eq_some_iff.mp hended
      obtain ⟨c, hc, hinitializer⟩ := Option.map_eq_some_iff.mp hc
      rcases hcall : callValue n (.function id) args m with ⟨_ | v, m'⟩
      · rw [hcall] at hok
        cases hok
      · obtain ⟨object, hthis, rfl⟩ := hcalls n id args m v m' c hvisits hc hinitializer hcall
        exact ⟨n, id, args, m, c, object, hvisits, hc, hinitializer, hthis, by rw [hcall]⟩
    · cases hended

end Lox
