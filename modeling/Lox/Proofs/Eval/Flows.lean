/-
  Lox.Proofs.Eval.Flows — the course of an evaluation, said once for every kind: one part after
  the other, up to the first that halts, with only changes of its own around them (`flows`). So
  what all these changes keep, whole evaluations keep, and no further proof looks into the
  evaluator for it.
-/

import Lox.Proofs.Eval.Course

namespace Lox

open Eval

namespace Evaluation

/-! ## The course of an evaluation -/

/-- A call expression, at this line, that has come to its callee and to as many arguments as
the callee takes. -/
inductive Calls : Evaluation → Nat → Prop
  | mk {n f args line m callee m₁ values m₂} : evalExpr n f m = (.ok callee, m₁) →
      evalExprs n args m₁ = (.ok values, m₂) → m₂.heap.arity? callee = some values.length →
      Calls ⟨n + 1, .expr (.call f args line), m⟩ line

/-- From this machine and with these values at hand, the evaluation comes to its end through
these parts, one after the other. If one of them halts it is the last, and the evaluation
halts for the same reason; only calls may be the first to halt for want of room. -/
inductive Flows (p : Evaluation) (out : Except Halt (List Value) × Machine) :
    List Value → Machine → List Evaluation → Prop
  | ends {pool m} : p.Moves pool m out.2 →
      (∀ vs, out.1 = .ok vs → ∀ v ∈ vs, v ∈ pool ∨ v.FoundIn out.2.heap) →
      (∀ line, out.1 = .error (.fault ⟨line, .stackOverflow⟩) → p.Calls line ∧ maxDepth ≤ p.machine.depth) →
      Flows p out pool m []
  | halts {pool m e halt} : p.Moves pool m e.machine → e.given ⊆ pool → e.outcome.1 = .error halt →
      p.Moves pool e.final out.2 → out.1 = .error halt → Flows p out pool m [e]
  | goes {pool m e vs rest} : p.Moves pool m e.machine → e.given ⊆ pool → e.outcome.1 = .ok vs →
      Flows p out (vs ++ pool) e.final rest → Flows p out pool m (e :: rest)
  | finds {pool m m' v rest} : p.Moves pool m m' → v.FoundIn m'.heap → Flows p out (v :: pool) m' rest →
      Flows p out pool m rest

section

variable {p e : Evaluation} {pool : List Value} {m m' : Machine} {α β : Type} {x y : Eval α} {f : α → Eval β}
  {values : α → List Value} {values' : β → List Value} {es : List Evaluation}

/-- Changes that come before the parts. -/
theorem Flows.after {out : Except Halt (List Value) × Machine} (hm : p.Moves pool m m') (h : Flows p out pool m' es) :
    Flows p out pool m es := by
  cases h with
  | ends hacts hv hr => exact .ends (hm.trans hacts) hv hr
  | halts hacts hg he hback ho => exact .halts (hm.trans hacts) hg he hback ho
  | goes hacts hg he hrest => exact .goes (hm.trans hacts) hg he hrest
  | finds hacts hv hrest => exact .finds (hm.trans hacts) hv hrest

/-- A part, what is done right before and after it, and how it goes on from there. -/
theorem Flows.part (back : Machine → Machine) (hx : x m = ((y e.machine).1, back (y e.machine).2))
    (he : e.outcome = yields values (y e.machine)) (hinto : p.Moves pool m e.machine) (hg : e.given ⊆ pool)
    (hback : ∀ pool m, p.Moves pool m (back m))
    (hnext : ∀ a m₁, y e.machine = (.ok a, m₁) →
      Flows p (yields values' (f a (back m₁))) (values a ++ pool) (back m₁) es)
    (hnone : ∀ halt m₁, y e.machine = (.error halt, m₁) → es = []) :
    Flows p (yields values' ((x >>= f) m)) pool m (e :: es) := by
  have hfinal : e.final = (y e.machine).2 := by rw [final, he]; rfl
  rcases hy : y e.machine with ⟨halt | a, m₁⟩
  · rw [hy] at hx he hfinal
    rw [hnone halt m₁ hy, bind_error hx]
    refine .halts hinto hg (by rw [he]; rfl) ?_ rfl
    rw [hfinal]
    exact hback pool m₁
  · rw [hy] at hx he hfinal
    rw [bind_ok hx]
    refine .goes hinto hg (by rw [he]; rfl) ?_
    rw [hfinal]
    exact .after (hback _ m₁) (hnext a m₁ hy)

/-- A part, and then what follows its end. -/
theorem Flows.step {next : α → Machine → List Evaluation} (he : e.outcome = yields values (x m)) (hm : e.machine = m)
    (hg : e.given ⊆ pool)
    (hnext : ∀ a m₁, x m = (.ok a, m₁) → Flows p (yields values' (f a m₁)) (values a ++ pool) m₁ (next a m₁)) :
    Flows p (yields values' ((x >>= f) m)) pool m (e :: andThen (x m) next) := by
  subst hm
  refine .part id rfl he .refl hg (fun _ _ => .refl) (fun a m₁ hx => ?_) fun halt m₁ hx => andThen_error hx
  rw [andThen_ok hx]
  exact hnext a m₁ hx

end

/-! ## What is done between the parts -/

structure Does {α : Type} (p : Evaluation) (pool : List Value) (m : Machine) (values : α → List Value)
    (out : Except Halt α × Machine) : Prop where
  moves : p.Moves pool m out.2
  found : ∀ a, out.1 = .ok a → ∀ v ∈ values a, v ∈ pool ∨ v.FoundIn out.2.heap
  calm : ∀ line, out.1 ≠ .error (.fault ⟨line, .stackOverflow⟩)

section

variable {p e : Evaluation} {pool : List Value} {m m' : Machine} {α β : Type} {x : Eval α} {f : α → Eval β}
  {values : α → List Value} {values' : β → List Value}

/-- What is done after the last part. -/
theorem Flows.finish (h : Does p pool m values (x m)) : Flows p (yields values (x m)) pool m [] := by
  refine .ends h.moves (fun vs hvs v hv => ?_) fun line hline => ?_
  · rcases hx : (x m).1 with halt | a
    · rw [yields, hx] at hvs
      cases hvs
    · rw [yields, hx] at hvs
      cases hvs
      exact h.found a hx v hv
  · rcases hx : (x m).1 with halt | a
    · rw [yields, hx] at hline
      cases hline
      exact absurd hx (h.calm line)
    · rw [yields, hx] at hline
      cases hline

theorem Flows.last (he : e.outcome = yields values (x m)) (hm : e.machine = m) (hg : e.given ⊆ pool)
    (hnext : ∀ a m₁, x m = (.ok a, m₁) → Does p (values a ++ pool) m₁ values' (f a m₁)) :
    Flows p (yields values' ((x >>= f) m)) pool m [e] := by
  subst hm
  exact .part id rfl he .refl hg (fun _ _ => .refl) (fun a m₁ hx => .finish (hnext a m₁ hx)) fun _ _ _ => rfl

theorem Does.pure {a : α} (h : ∀ v ∈ values a, v ∈ pool ∨ v.FoundIn m.heap) :
    Does p pool m values ((Pure.pure a : Eval α) m) := by
  refine ⟨.refl, fun b hb => ?_, fun line heq => by cases heq⟩
  cases hb
  exact h

theorem Does.fail {line : Nat} {fault : RuntimeFault} (h : fault ≠ .stackOverflow) :
    Does p pool m values ((Eval.fail line fault : Eval α) m) := by
  refine ⟨.refl, fun b hb => (by cases hb), fun line' heq => ?_⟩
  cases heq
  exact h rfl

theorem Does.exhausted : Does p pool m values ((Eval.exhausted : Eval α) m) :=
  ⟨.refl, fun b hb => (by cases hb), fun line heq => by cases heq⟩

/-- Computations without parts, one after the other. -/
theorem Does.bind (hx : Does p pool m values (x m))
    (hf : ∀ a m₁, x m = (.ok a, m₁) → Does p pool m₁ values' (f a m₁)) :
    Does p pool m values' ((x >>= f) m) := by
  rcases heq : x m with ⟨halt | a, m₁⟩
  · rw [bind_error heq]
    rw [heq] at hx
    refine ⟨hx.moves, fun b hb => (by cases hb), fun line herror => hx.calm line ?_⟩
    cases herror
    rfl
  · rw [bind_ok heq]
    rw [heq] at hx
    have h := hf a m₁ heq
    exact ⟨hx.moves.trans h.moves, h.found, h.calm⟩

/-- A part is the last thing that happens, but for what is done right after it. -/
theorem Flows.wrap {y : Eval α} (back : Machine → Machine) (hx : x m = ((y e.machine).1, back (y e.machine).2))
    (he : e.outcome = yields values (y e.machine)) (hinto : p.Moves pool m e.machine) (hg : e.given ⊆ pool)
    (hback : ∀ pool m, p.Moves pool m (back m)) : Flows p (yields values (x m)) pool m [e] := by
  rw [← bind_pure x]
  refine .part back hx he hinto hg hback (fun a m₁ _ => .finish (.pure fun v hv => ?_)) fun _ _ _ => rfl
  exact .inl (List.mem_append_left pool hv)

/-- An evaluation that ends as its last part does. -/
theorem Flows.whole (he : e.outcome = yields values (x m)) (hm : e.machine = m) (hg : e.given ⊆ pool) :
    Flows p (yields values (x m)) pool m [e] := by
  subst hm
  exact .wrap id rfl he .refl hg fun _ _ => .refl

/-- One change. -/
theorem Does.modify {u : Machine → Machine} (h : p.Acts pool m (u m)) :
    Does p pool m (fun _ => []) ((modify u : Eval Unit) m) :=
  ⟨.single h, fun _ _ v hv => absurd hv List.not_mem_nil, fun line heq => by cases heq⟩

theorem Does.modifyGet {u : Machine → α × Machine} (h : p.Acts pool m (u m).2)
    (hv : ∀ v ∈ values (u m).1, v.FoundIn (u m).2.heap) : Does p pool m values ((modifyGet u : Eval α) m) := by
  refine ⟨.single h, fun a ha v hmem => ?_, fun line heq => by cases heq⟩
  cases ha
  exact .inr (hv v hmem)

end

/-! ## The computations of the evaluator -/

section

variable {p : Evaluation} {pool : List Value} {m : Machine}

theorem holds_of_get? {scope : ScopeId} {name : Bytes} {v : Value} (h : m.heap.scopes.get? scope name = some v) :
    m.heap.Holds v := by
  obtain ⟨holder, hown⟩ := Scopes.own_of_get? h
  exact .inl ⟨holder, name, hown⟩

/-- What a name stands for is held by some scope. -/
theorem lookup_holds {name : Name} {m₁ : Machine} {v : Value} (h : lookup name m = (.ok v, m₁)) :
    m₁ = m ∧ m.heap.Holds v := by
  rw [lookup, get_bind] at h
  rcases hv : m.heap.scopes.get? m.scope name.text with _ | _
  · rw [hv] at h
    cases h
  · rw [hv] at h
    cases h
    exact ⟨rfl, holds_of_get? hv⟩

/-- A value of its own. -/
theorem Does.value {v : Value} (h : v.FoundIn m.heap) : Does p pool m (fun v => [v]) ((Pure.pure v : Eval Value) m) :=
  .pure fun _ hv' => .inr (List.mem_singleton.mp hv' ▸ h)

theorem lookup_does (name : Name) : Does p pool m (fun v => [v]) (lookup name m) := by
  rw [lookup, get_bind]
  rcases hv : m.heap.scopes.get? m.scope name.text with _ | v
  · exact .fail (by nofun)
  · exact .value (.inr (holds_of_get? hv))

theorem assign_does {n : Nat} {name : Name} {e : Expr} {m₀ : Machine} {value : Value} (hv : value ∈ pool) :
    Does ⟨n + 1, .expr (.assign name e), m₀⟩ pool m (fun _ => []) (assign name value m) := by
  rcases hholder : m.heap.scopes.holder? m.scope name.text with _ | holder
  · rw [assign_unbound hholder]
    exact .fail (by nofun)
  · rw [assign_bound hholder]
    exact Does.modify (u := fun m => m.bindName holder name.text value) (.assigned hholder hv)

theorem numbers_does (line : Nat) {f : Float → Float → Value} (hf : ∀ a b, (f a b).Backed m.heap) (l r : Value) :
    Does p pool m (fun v => [v]) (numbers line f l r m) := by
  unfold numbers
  split
  · exact .value (.inl (hf _ _))
  · exact .fail (by nofun)

theorem applyUnary_does (op : UnaryOp) (line : Nat) (v : Value) : Does p pool m (fun v => [v]) (applyUnary op line v m) := by
  unfold applyUnary
  split
  · exact .value (.inl trivial)
  · exact .value (.inl trivial)
  · exact .fail (by nofun)

theorem applyBinary_does (op : BinaryOp) (line : Nat) (l r : Value) :
    Does p pool m (fun v => [v]) (applyBinary op line l r m) := by
  cases op with
  | equal => exact .value (.inl trivial)
  | notEqual => exact .value (.inl trivial)
  | greater | greaterEqual | less | lessEqual | subtract | multiply | divide =>
    refine numbers_does line ?_ l r
    exact fun _ _ => trivial
  | add =>
    unfold applyBinary
    dsimp only
    split
    · exact .value (.inl trivial)
    · exact .value (.inl trivial)
    · exact .fail (by nofun)

theorem expectObject_does (line : Nat) {fault : RuntimeFault} (hf : fault ≠ .stackOverflow) (v : Value) :
    Does p pool m (fun _ => []) (expectObject line fault v m) := by
  unfold expectObject
  split
  · exact .pure fun v hv => absurd hv List.not_mem_nil
  · exact .fail hf

/-- A scope with the receiver is made, and then the function. -/
theorem bindMethod_does {home : ClassId} {method : Closure} {receiver : ObjectId} (hm : m.heap.Declared home method)
    (hr : (Value.object receiver).FoundIn m.heap) : Does p pool m (fun v => [v]) (bindMethod method receiver m) := by
  have hscope : p.Acts pool m (m.addScope (method.receiving receiver)) := .received hm hr
  have hnew := Scopes.getElem?_push_next m.heap.scopes (method.receiving receiver)
  have hm' : (m.addScope (method.receiving receiver)).heap.Declared home method := hm
  have hfunction : p.Acts pool (m.addScope (method.receiving receiver))
      ((m.addScope (method.receiving receiver)).addFunction { method with scope := m.heap.scopes.next }) :=
    .bound hm' hnew
  refine ⟨.tail (.single hscope) hfunction, fun v hv => ?_, fun line heq => by cases heq⟩
  cases hv
  intro v hv
  rw [List.mem_singleton.mp hv]
  exact .inr (.inl ⟨{ method with scope := m.heap.scopes.next }, Array.getElem?_push_size⟩)

theorem getProperty_does (id : ObjectId) (name : Name) : Does p pool m (fun v => [v]) (getProperty id name m) := by
  rw [getProperty, get_bind]
  rcases hobject : m.heap.objects[id]? with _ | object
  · exact .fail (by nofun)
  · dsimp only
    rcases hv : object.fields.get? name.text with _ | v
    · dsimp only
      rcases hmethod : m.heap.method? object.classId name.text with _ | method
      · exact .fail (by nofun)
      · obtain ⟨home, -, hdeclared⟩ := Heap.methodWithin?_declared hmethod
        exact bindMethod_does hdeclared (.inl ⟨object, hobject⟩)
    · exact .value (.inr (.inr ⟨id, object, name.text, hobject, hv⟩))

theorem superMethod_does (line : Nat) (method : Name) : Does p pool m (fun v => [v]) (superMethod line method m) := by
  refine (lookup_does ⟨superName, line⟩).bind fun v m₁ hsuper => ?_
  obtain ⟨rfl, -⟩ := lookup_holds hsuper
  cases v with
  | classRef parent =>
    refine (lookup_does ⟨thisName, line⟩).bind fun v m₂ hthis => ?_
    obtain ⟨rfl, hheld⟩ := lookup_holds hthis
    refine (expectObject_does line (by nofun) v).bind fun receiver m₃ hobject => ?_
    cases v with
    | object id =>
      cases hobject
      rw [get_bind]
      rcases hfound : m₂.heap.method? parent method.text with _ | found
      · exact .fail (by nofun)
      · obtain ⟨home, -, hdeclared⟩ := Heap.methodWithin?_declared hfound
        exact bindMethod_does hdeclared (.inr hheld)
    | nil | bool | number | string | function | clock | classRef => cases hobject
  | nil | bool | number | string | function | clock | object => exact .fail (by nofun)

theorem callResult_does (c : Closure) {completion : Completion} (h : returnedValues completion ⊆ pool) :
    Does p pool m (fun v => [v]) (callResult c completion m) := by
  unfold callResult
  split
  · rw [get_bind]
    refine .value ?_
    rcases hthis : m.heap.scopes.own? c.scope thisName with _ | v
    · exact .inl trivial
    · exact .inr (.inl ⟨c.scope, thisName, hthis⟩)
  · cases completion with
    | normal => exact .value (.inl trivial)
    | returned value => exact .pure fun v hv => .inl (h hv)

theorem superclass_does (clause : Option Name) : Does p pool m (fun _ => []) (superclass clause m) := by
  cases clause with
  | none => exact .pure fun v hv => absurd hv List.not_mem_nil
  | some name =>
    refine (lookup_does name).bind fun v m₁ hv => ?_
    cases v with
    | classRef id => exact .pure fun v hv => absurd hv List.not_mem_nil
    | nil | bool | number | string | function | clock | object => exact .fail (by nofun)

theorem superclass_holds {clause : Option Name} {m₁ : Machine} {parent : Option ClassId}
    (h : superclass clause m = (.ok parent, m₁)) : m₁ = m ∧ ∀ id, parent = some id → m.heap.Holds (.classRef id) := by
  cases clause with
  | none =>
    cases h
    exact ⟨rfl, fun id hid => by cases hid⟩
  | some name =>
    rw [superclass, bind_run] at h
    rcases hv : lookup name m with ⟨halt | v, m₂⟩
    · rw [hv] at h
      cases h
    · obtain ⟨rfl, hheld⟩ := lookup_holds hv
      rw [hv] at h
      cases v with
      | classRef id =>
        cases h
        exact ⟨rfl, fun id' hid => Option.some.inj hid ▸ hheld⟩
      | nil | bool | number | string | function | clock | object => cases h

/-- A class declaration makes at most three changes: a scope for the superclass, the class, and its
name. -/
theorem declareClass_moves {n : Nat} {name : Name} {clause : Option Name} {methods : List FunctionDecl} {m : Machine}
    {parent : Option ClassId} (hparent : superclass clause m = (.ok parent, m)) :
    Does ⟨n + 1, .stmt (.classDecl name clause methods), m⟩ pool m (fun _ => []) (declareClass name.text parent methods m) := by
  obtain ⟨-, hheld⟩ := superclass_holds hparent
  -- Once its methods have their scope, the class is made and then bound to its name.
  have hmade {m₁ : Machine} (scope : ScopeId) (hscope : m₁.scope = m.scope) (hclasses : m₁.heap.classes = m.heap.classes) :
      Moves ⟨n + 1, .stmt (.classDecl name clause methods), m⟩ pool m₁
        ((m₁.addClass ⟨name.text, parent, methodTable scope methods⟩).bindName m₁.scope name.text
          (.classRef m₁.heap.classes.size)) := by
    rw [hscope]
    exact .tail (.single (.classMade hparent hclasses)) (.declared rfl (.inr (.inl ⟨_, Array.getElem?_push_size⟩)))
  cases parent with
  | none =>
    rw [declareClass_base]
    exact ⟨hmade m.scope rfl rfl, fun _ _ v hv => absurd hv List.not_mem_nil, fun line heq => by cases heq⟩
  | some id =>
    rw [declareClass_derived]
    refine ⟨.head (.superKnown (.inr (hheld id rfl))) (hmade m.heap.scopes.next rfl rfl), ?_, ?_⟩
    · exact fun _ _ v hv => absurd hv List.not_mem_nil
    · exact fun line heq => by cases heq

end

/-! ## Every evaluation -/

section

variable {n : Nat} {m m' : Machine}

theorem steady_expr {e : Expr} {r : Except Halt Value} (h : evalExpr n e m = (r, m')) : m.Steady m' := by
  have hsteady := steady ⟨n, .expr e, m⟩
  rw [final, outcome, h] at hsteady
  exact hsteady

theorem steady_exprs {es : List Expr} {r : Except Halt (List Value)} (h : evalExprs n es m = (r, m')) : m.Steady m' := by
  have hsteady := steady ⟨n, .exprs es, m⟩
  rw [final, outcome, h] at hsteady
  exact hsteady

theorem steady_stmt {s : Stmt} {r : Except Halt Completion} (h : execStmt n s m = (r, m')) : m.Steady m' := by
  have hsteady := steady ⟨n, .stmt s, m⟩
  rw [final, outcome, h] at hsteady
  exact hsteady

/-- A call that is let through has its arguments and finds room. -/
theorem checkCall_ok {callee : Value} {count line : Nat} (h : checkCall callee count line m = (.ok (), m')) :
    m' = m ∧ m.heap.arity? callee = some count ∧ m.depth < maxDepth := by
  rw [checkCall, get_bind] at h
  rcases harity : m.heap.arity? callee with _ | arity
  · rw [harity] at h
    cases h
  · rw [harity] at h
    dsimp only at h
    split at h
    · cases h
    · rename_i hcount
      split at h
      · cases h
      · rename_i hdepth
        cases h
        exact ⟨rfl, by rw [Decidable.not_not.mp hcount], Nat.lt_of_not_le hdepth⟩

/-- A call is refused for want of room only if it has its arguments. -/
theorem checkCall_error {callee : Value} {count line : Nat} {halt : Halt}
    (h : checkCall callee count line m = (.error halt, m')) : m' = m ∧ ∀ line', halt = .fault ⟨line', .stackOverflow⟩ →
      line' = line ∧ m.heap.arity? callee = some count ∧ maxDepth ≤ m.depth := by
  rw [checkCall, get_bind] at h
  rcases harity : m.heap.arity? callee with _ | arity
  · rw [harity] at h
    cases h
    exact ⟨rfl, fun line' hline => by cases hline⟩
  · rw [harity] at h
    dsimp only at h
    split at h
    · cases h
      exact ⟨rfl, fun line' hline => by cases hline⟩
    · rename_i hcount
      split at h
      · rename_i hdepth
        cases h
        refine ⟨rfl, fun line' hline => ?_⟩
        cases hline
        exact ⟨rfl, by rw [Decidable.not_not.mp hcount], hdepth⟩
      · cases h

/-- The callee and the arguments are there; now the call is made, or refused. -/
theorem flows_invocation {f : Expr} {args : List Expr} {line : Nat} {callee : Value} {m₁ m₂ : Machine}
    {values pool : List Value} (hf : evalExpr n f m = (.ok callee, m₁)) (hargs : evalExprs n args m₁ = (.ok values, m₂))
    (hp : callee :: values ⊆ pool) :
    Flows ⟨n + 1, .expr (.call f args line), m⟩
      (yields (fun v => [v]) ((checkCall callee values.length line >>= fun _ => deeper (callValue n callee values)) m₂)) pool
      m₂ (andThen (checkCall callee values.length line m₂) fun _ m₃ =>
        [⟨n, .call callee values, { m₃ with depth := m₃.depth + 1 }⟩]) := by
  have hdepth : m₂.depth = m.depth := ((steady_expr hf).trans (steady_exprs hargs)).depth
  rcases hcheck : checkCall callee values.length line m₂ with ⟨halt | _, m₃⟩
  · obtain ⟨rfl, hover⟩ := checkCall_error hcheck
    rw [bind_error hcheck]
    refine .ends .refl (fun vs hvs => by cases hvs) fun line' hline => ?_
    cases hline
    obtain ⟨rfl, harity, hfull⟩ := hover line' rfl
    exact ⟨.mk hf hargs harity, hdepth ▸ hfull⟩
  · obtain ⟨rfl, -, hroom⟩ := checkCall_ok hcheck
    rw [bind_ok hcheck]
    have hrun := deeper_restored (x := callValue n callee values) (m := m₃) rfl
      (callValue_steady n callee values { m₃ with depth := m₃.depth + 1 }).depth
    refine .wrap (y := callValue n callee values) (fun m' => { m' with depth := m₃.depth }) hrun rfl
      (.single (.called hroom)) hp fun pool m' => ?_
    rw [hdepth]
    exact .single .hungUp

theorem ofLiteral_backed (v : Literal) (h : Heap) : (Value.ofLiteral v).Backed h := by
  cases v <;> trivial

theorem flows_expr (n : Nat) (e : Expr) (m : Machine) :
    Flows ⟨n + 1, .expr e, m⟩ (outcome ⟨n + 1, .expr e, m⟩) [] m (parts ⟨n + 1, .expr e, m⟩) := by
  cases e with
  | literal v => exact .finish (.value (.inl (ofLiteral_backed v _)))
  | var name => exact .finish (lookup_does name)
  | assign name e =>
    refine .last rfl rfl (List.nil_subset _) fun v m₁ _ => (assign_does (List.mem_cons_self)).bind fun _ m₂ _ => ?_
    exact .pure fun v' hv' => .inl hv'
  | unary op line e => exact .last rfl rfl (List.nil_subset _) fun v m₁ _ => applyUnary_does op line v
  | binary op line l r =>
    refine .step rfl rfl (List.nil_subset _) fun a m₁ _ => ?_
    exact .last rfl rfl (List.nil_subset _) fun b m₂ _ => applyBinary_does op line a b
  | logical op l r =>
    refine .step rfl rfl (List.nil_subset _) fun v m₁ _ => ?_
    cases decides op v with
    | true => exact .finish (.pure fun v' hv' => .inl hv')
    | false => exact .whole rfl rfl (List.nil_subset _)
  | call f args line =>
    refine .step rfl rfl (List.nil_subset _) fun callee m₁ hf => ?_
    refine .step rfl rfl (List.nil_subset _) fun values m₂ hargs => ?_
    refine flows_invocation hf hargs fun v hv => ?_
    rcases List.mem_cons.mp hv with rfl | hv
    · exact List.mem_append_right _ List.mem_cons_self
    · exact List.mem_append_left _ hv
  | get o name =>
    refine .last rfl rfl (List.nil_subset _) fun v m₁ _ => ?_
    exact (expectObject_does name.line (by nofun) v).bind fun id m₂ _ => getProperty_does id name
  | set o name e =>
    refine .step rfl rfl (List.nil_subset _) fun v m₁ _ => ?_
    cases v with
    | object id =>
      show Flows _ (yields _ ((evalExpr n e >>= fun value => setField id name.text value >>= fun _ => pure value) m₁)) _ _ _
      refine .last rfl rfl (List.nil_subset _) fun value m₂ _ => ?_
      refine (Does.modify (.stored List.mem_cons_self)).bind fun _ m₃ _ => .pure fun v' hv' => .inl ?_
      exact List.mem_append_left _ hv'
    | nil | bool | number | string | function | clock | classRef =>
      exact .finish ((expectObject_does name.line (by nofun) _).bind fun id m₂ hid => by cases hid)
  | this line => exact .finish (lookup_does ⟨thisName, line⟩)
  | super line method => exact .finish (superMethod_does line method)
  | group e => exact .whole rfl rfl (List.nil_subset _)

theorem flows_exprs (n : Nat) (es : List Expr) (m : Machine) :
    Flows ⟨n + 1, .exprs es, m⟩ (outcome ⟨n + 1, .exprs es, m⟩) [] m (parts ⟨n + 1, .exprs es, m⟩) := by
  cases es with
  | nil => exact .finish (.pure fun v hv => absurd hv List.not_mem_nil)
  | cons e es =>
    refine .step rfl rfl (List.nil_subset _) fun v m₁ _ => .last rfl rfl (List.nil_subset _) fun vs m₂ _ => ?_
    refine .pure fun v' hv' => .inl ?_
    rcases List.mem_cons.mp hv' with rfl | hv'
    · exact List.mem_append_right _ List.mem_cons_self
    · exact List.mem_append_left _ hv'

/-- An object is made, its initializer is called if there is one, and the object is what the
call comes to. -/
theorem callValue_class (n : Nat) (id : ClassId) (args : List Value) (m : Machine) :
    callValue (n + 1) (.classRef id) args m =
      match (m.addObject ⟨id, {}⟩).heap.method? id initializerName with
      | some method =>
        (callClosure n { method with scope := m.heap.scopes.next } args >>= fun _ => pure (Value.object m.heap.objects.size))
          ((m.addObject ⟨id, {}⟩).addScope (method.receiving m.heap.objects.size))
      | none => (.ok (.object m.heap.objects.size), m.addObject ⟨id, {}⟩) := by
  rw [callValue]
  show (match (m.addObject ⟨id, {}⟩).heap.method? id initializerName with
    | some method => bindReceiver method m.heap.objects.size >>= fun c => callClosure n c args >>= fun _ =>
        pure (Value.object m.heap.objects.size)
    | none => pure (Value.object m.heap.objects.size) : Eval Value) (m.addObject ⟨id, {}⟩) = _
  rcases (m.addObject ⟨id, {}⟩).heap.method? id initializerName with _ | method <;> rfl

/-- Calling a class makes an object, and then its initializer is the one part. -/
theorem flows_class (n : Nat) (id : ClassId) (args : List Value) (m : Machine) :
    Flows ⟨n + 1, .call (.classRef id) args, m⟩ (outcome ⟨n + 1, .call (.classRef id) args, m⟩) (.classRef id :: args) m
      (parts ⟨n + 1, .call (.classRef id) args, m⟩) := by
  have hmade : Moves ⟨n + 1, .call (.classRef id) args, m⟩ (.classRef id :: args) m (m.addObject ⟨id, {}⟩) :=
    .single .created
  have hbacked : (Value.object m.heap.objects.size).Backed (m.addObject ⟨id, {}⟩).heap := ⟨_, Array.getElem?_push_size⟩
  rw [outcome, callValue_class]
  simp only [parts]
  rcases hmethod : (m.addObject ⟨id, {}⟩).heap.method? id initializerName with _ | method
  · exact .after hmade (.finish (x := pure _) (.value (.inl hbacked)))
  · obtain ⟨home, -, hdeclared⟩ := Heap.methodWithin?_declared hmethod
    refine .finds hmade (.inl hbacked) (.after (.single (.received hdeclared (.inl hbacked))) ?_)
    refine .last rfl rfl (fun v hv => List.mem_cons_of_mem _ (List.mem_cons_of_mem _ hv)) fun v m₁ _ => ?_
    exact .pure fun v' hv' => .inl (List.mem_append_right _ (List.mem_singleton.mp hv' ▸ List.mem_cons_self))

theorem flows_call (n : Nat) (callee : Value) (args : List Value) (m : Machine) :
    Flows ⟨n + 1, .call callee args, m⟩ (outcome ⟨n + 1, .call callee args, m⟩) (callee :: args) m
      (parts ⟨n + 1, .call callee args, m⟩) := by
  cases callee with
  | function id =>
    rw [outcome, callValue, get_bind]
    simp only [parts]
    rcases m.heap.functions[id]? with _ | c
    · exact .finish (.value (.inl trivial))
    · exact .whole rfl rfl (List.subset_cons_self _ _)
  | clock => exact .finish (.modifyGet .timed fun v hv => .inl (List.mem_singleton.mp hv ▸ trivial))
  | classRef id => exact flows_class n id args m
  | nil | bool | number | string | object => exact .finish (.value (.inl trivial))

/-- The body of a function is its one part, in a scope that binds the arguments. -/
theorem flows_closure (n : Nat) (c : Closure) (args : List Value) (m : Machine) :
    Flows ⟨n + 1, .closure c args, m⟩ (outcome ⟨n + 1, .closure c args, m⟩) args m (parts ⟨n + 1, .closure c args, m⟩) := by
  refine .after (.single (.entered (List.Subset.refl args))) ?_
  show Flows _ (yields _ ((inScope m.heap.scopes.next (execStmts n c.declaration.body) >>= callResult c)
    (m.addScope ⟨some c.scope, Scopes.bindAll Table.empty c.declaration.parameters args⟩))) _ _ _
  refine .part (fun m' => { m' with scope := m.scope }) rfl rfl (.single .moved) (List.nil_subset _)
    (fun pool m' => .single .moved) (fun completion m₁ _ => ?_) fun _ _ _ => rfl
  exact .finish (callResult_does c (List.subset_append_left _ _))

theorem define_does {pool : List Value} {s : Stmt} {m₀ : Machine} {name : Bytes} {value : Value}
    (hs : s.declared? = some name) (hscope : m.scope = m₀.scope) (hv : value ∈ pool ∨ value.FoundIn m.heap) :
    Does ⟨n + 1, .stmt s, m₀⟩ pool m (fun _ => []) (define name value m) := by
  have hact : Acts ⟨n + 1, .stmt s, m₀⟩ pool m (m.bindName m₀.scope name value) := .declared hs hv
  rw [← hscope] at hact
  exact .modify hact

/-- Nothing is returned. -/
theorem Does.normal {p : Evaluation} {pool : List Value} :
    Does p pool m returnedValues ((Pure.pure Completion.normal : Eval Completion) m) :=
  .pure fun _ hv => absurd hv List.not_mem_nil

theorem flows_stmt (n : Nat) (s : Stmt) (m : Machine) :
    Flows ⟨n + 1, .stmt s, m⟩ (outcome ⟨n + 1, .stmt s, m⟩) [] m (parts ⟨n + 1, .stmt s, m⟩) := by
  cases s with
  | expression e => exact .last rfl rfl (List.nil_subset _) fun v m₁ _ => .normal
  | print e =>
    exact .last rfl rfl (List.nil_subset _) fun v m₁ _ => (Does.modify .printed).bind fun _ m₂ _ => .normal
  | var name value =>
    cases value with
    | none =>
      have hnil : Value.nil.FoundIn m.heap := .inl trivial
      exact .finish ((define_does rfl rfl (.inr hnil)).bind fun _ m₂ _ => .normal)
    | some e =>
      refine .last rfl rfl (List.nil_subset _) fun v m₁ hv => ?_
      exact (define_does rfl (steady_expr hv).scope (.inl List.mem_cons_self)).bind fun _ m₂ _ => .normal
  | block body =>
    refine .after (.single .opened) ?_
    show Flows _ (yields _ (inScope m.heap.scopes.next (execStmts n body) (m.addScope ⟨some m.scope, Table.empty⟩))) _ _ _
    exact .wrap (fun m' => { m' with scope := m.scope }) rfl rfl (.single .moved) (List.nil_subset _)
      fun pool m' => .single .moved
  | ifElse c t e =>
    refine .step rfl rfl (List.nil_subset _) fun v m₁ _ => ?_
    cases v.truthy with
    | true => exact .whole rfl rfl (List.nil_subset _)
    | false =>
      cases e with
      | none => exact .finish .normal
      | some e => exact .whole rfl rfl (List.nil_subset _)
  | loop c b => exact .whole rfl rfl (List.nil_subset _)
  | function d =>
    have hmade : Does ⟨n + 1, .stmt (.function d), m⟩ [] m (fun _ => []) (newFunction ⟨d, m.scope, false⟩ m) :=
      .modifyGet .functionMade fun v hv => absurd hv List.not_mem_nil
    have hfound : (Value.function m.heap.functions.size).FoundIn (m.addFunction ⟨d, m.scope, false⟩).heap :=
      .inl ⟨_, Array.getElem?_push_size⟩
    have hbound : Does ⟨n + 1, .stmt (.function d), m⟩ [] (m.addFunction ⟨d, m.scope, false⟩) (fun _ => [])
        (define d.name.text (.function m.heap.functions.size) (m.addFunction ⟨d, m.scope, false⟩)) :=
      define_does rfl rfl (.inr hfound)
    have hdone : Does ⟨n + 1, .stmt (.function d), m⟩ [] m returnedValues
        ((newFunction ⟨d, m.scope, false⟩ >>= fun v => define d.name.text v >>= fun _ => pure .normal) m) := by
      refine hmade.bind fun v m₁ hv => ?_
      cases hv
      exact hbound.bind fun _ m₂ _ => .normal
    exact .finish hdone
  | ret value =>
    cases value with
    | none => exact .finish (.pure fun v hv => .inr (.inl (List.mem_singleton.mp hv ▸ trivial)))
    | some e =>
      exact .last rfl rfl (List.nil_subset _) fun v m₁ _ => .pure fun v' hv' => .inl hv'
  | classDecl name clause methods =>
    refine .finish ((superclass_does clause).bind fun parent m₁ hparent => ?_)
    obtain ⟨rfl, -⟩ := superclass_holds hparent
    exact (declareClass_moves hparent).bind fun _ m₂ _ => .normal

theorem flows_stmts (n : Nat) (ss : List Stmt) (m : Machine) :
    Flows ⟨n + 1, .stmts ss, m⟩ (outcome ⟨n + 1, .stmts ss, m⟩) [] m (parts ⟨n + 1, .stmts ss, m⟩) := by
  cases ss with
  | nil => exact .finish .normal
  | cons s ss =>
    refine .step rfl rfl (List.nil_subset _) fun completion m₁ _ => ?_
    cases completion with
    | normal => exact .whole rfl rfl (List.nil_subset _)
    | returned value => exact .finish (.pure fun v hv => .inl hv)

theorem flows_loop (n : Nat) (c : Expr) (b : Stmt) (m : Machine) :
    Flows ⟨n + 1, .loop c b, m⟩ (outcome ⟨n + 1, .loop c b, m⟩) [] m (parts ⟨n + 1, .loop c b, m⟩) := by
  refine .step rfl rfl (List.nil_subset _) fun v m₁ _ => ?_
  cases v.truthy with
  | true =>
    refine .step rfl rfl (List.nil_subset _) fun completion m₂ _ => ?_
    cases completion with
    | normal => exact .whole rfl rfl (List.nil_subset _)
    | returned value => exact .finish (.pure fun v hv => .inl (List.mem_append_left _ hv))
  | false => exact .finish .normal

theorem flows_program (n : Nat) (ss : List Stmt) (m : Machine) :
    Flows ⟨n, .program ss, m⟩ (outcome ⟨n, .program ss, m⟩) [] m (parts ⟨n, .program ss, m⟩) := by
  cases ss with
  | nil => exact .finish (.pure fun v hv => absurd hv List.not_mem_nil)
  | cons s ss =>
    refine .step rfl rfl (List.nil_subset _) fun completion m₁ _ => .whole rfl rfl (List.nil_subset _)

end

/-- Every evaluation comes to its end through its parts. -/
theorem flows (p : Evaluation) : Flows p p.outcome p.given p.machine p.parts := by
  obtain ⟨n, task, m⟩ := p
  cases n with
  | zero =>
    cases task with
    | program ss => exact flows_program 0 ss m
    | expr | exprs | call | closure | stmt | stmts | loop => exact .finish .exhausted
  | succ n =>
    cases task with
    | expr e => exact flows_expr n e m
    | exprs es => exact flows_exprs n es m
    | call callee args => exact flows_call n callee args m
    | closure c args => exact flows_closure n c args m
    | stmt s => exact flows_stmt n s m
    | stmts ss => exact flows_stmts n ss m
    | loop c b => exact flows_loop n c b m
    | program ss => exact flows_program (n + 1) ss m

end Evaluation

end Lox
