/-
  Lox.Proofs.Eval.Ends — code without loops comes to an end. Functions may call each other
  as they please, for the depth of calls is bounded: a call takes no more than the size of
  the largest body, and what is left of the depth when it is made. So a bound above the size
  of the code, with room for the calls that may still follow, is never reached (`allEnd`).
-/

import Lox.Proofs.Eval.Run
import Lox.Proofs.Eval.Safety

namespace Lox

/-! ## Code without loops -/

mutual

def Stmt.LoopFree : Stmt → Prop
  | .expression _ => True
  | .print _ => True
  | .var _ _ => True
  | .block body => Stmt.AllLoopFree body
  | .ifElse _ t none => t.LoopFree
  | .ifElse _ t (some e) => t.LoopFree ∧ e.LoopFree
  | .loop _ _ => False
  | .function d => d.LoopFree
  | .ret _ => True
  | .classDecl _ _ methods => FunctionDecl.AllLoopFree methods

def FunctionDecl.LoopFree : FunctionDecl → Prop
  | .mk _ _ body => Stmt.AllLoopFree body

def Stmt.AllLoopFree : List Stmt → Prop
  | [] => True
  | s :: ss => s.LoopFree ∧ Stmt.AllLoopFree ss

def FunctionDecl.AllLoopFree : List FunctionDecl → Prop
  | [] => True
  | d :: ds => d.LoopFree ∧ FunctionDecl.AllLoopFree ds

end

theorem FunctionDecl.allLoopFree_iff {ds : List FunctionDecl} :
    FunctionDecl.AllLoopFree ds ↔ ∀ d ∈ ds, d.LoopFree := by
  induction ds with
  | nil => simp [FunctionDecl.AllLoopFree]
  | cons d ds ih => simp [FunctionDecl.AllLoopFree, ih]

structure FunctionDecl.Tame (size : Nat) (d : FunctionDecl) : Prop where
  loopFree : d.LoopFree
  sizeOf_le : sizeOf d ≤ size

theorem FunctionDecl.Tame.body {size : Nat} {d : FunctionDecl} (h : d.Tame size) : Stmt.AllLoopFree d.body := by
  cases d
  exact h.loopFree

/-- A body is smaller than any bound for its function. -/
theorem FunctionDecl.Tame.sizeOf_body {size : Nat} {d : FunctionDecl} (h : d.Tame size) : sizeOf d.body < size := by
  have hle := h.sizeOf_le
  cases d
  simp only [FunctionDecl.mk.sizeOf_spec] at hle
  simp only [FunctionDecl.body]
  omega

structure Heap.Tame (size : Nat) (h : Heap) : Prop where
  functions : ∀ (id : Nat) (c : Closure), h.functions[id]? = some c → c.declaration.Tame size
  methods : ∀ (id : Nat) (info : ClassInfo) (name : Bytes) (c : Closure), h.classes[id]? = some info →
    info.methods.get? name = some c → c.declaration.Tame size

theorem Heap.Tame.methodWithin? {size : Nat} {h : Heap} (ht : h.Tame size) {name : Bytes} {bound id : Nat} {c : Closure}
    (hc : h.methodWithin? name bound id = some c) : c.declaration.Tame size := by
  induction bound generalizing id with
  | zero => cases hc
  | succ bound ih =>
    unfold Heap.methodWithin? at hc
    split at hc
    · cases hc
    · rename_i info hinfo
      split at hc
      · rename_i method hmethod
        cases hc
        exact ht.methods id info name c hinfo hmethod
      · split at hc
        · cases hc
        · exact ih hc

theorem Heap.Tame.mono {size size' : Nat} {h : Heap} (ht : h.Tame size) (hle : size ≤ size') : h.Tame size' where
  functions id c hc := ⟨(ht.functions id c hc).loopFree, Nat.le_trans (ht.functions id c hc).sizeOf_le hle⟩
  methods id info name c hi hc :=
    ⟨(ht.methods id info name c hi hc).loopFree, Nat.le_trans (ht.methods id info name c hi hc).sizeOf_le hle⟩

namespace Eval

variable {α β : Type} {size : Nat} {enough : Prop} {m : Machine}

/-! ## Steps that end -/

/-- What the calls that may still follow can take. -/
def room (size : Nat) (m : Machine) : Nat := (maxDepth - m.depth) * (size + 3)

/-- The step leaves a tame heap and the depth as it was. It does not run out, if the bound was enough. -/
inductive Ends (size : Nat) (enough : Prop) (x : Eval α) (m : Machine) : Prop
  | mk {r : Except Halt α} {m' : Machine} : x m = (r, m') → (enough → r ≠ .error .exhausted) → m'.heap.Tame size →
      m'.depth = m.depth → Ends size enough x m

theorem Ends.pure {a : α} (h : m.heap.Tame size) : Ends size enough (pure a) m := .mk rfl (fun _ => nofun) h rfl

theorem Ends.fail (h : m.heap.Tame size) (line : Nat) (fault : RuntimeFault) :
    Ends size enough (fail line fault : Eval α) m :=
  .mk rfl (fun _ => nofun) h rfl

theorem Ends.exhausted (h : m.heap.Tame size) (hno : ¬ enough) : Ends size enough (exhausted : Eval α) m :=
  .mk rfl (fun he => absurd he hno) h rfl

/-- A change that leaves functions and classes as they are. -/
theorem Ends.change {x : Eval α} {a : α} {m' : Machine} (h : m.heap.Tame size) (hx : x m = (.ok a, m'))
    (hf : m'.heap.functions = m.heap.functions) (hc : m'.heap.classes = m.heap.classes) (hd : m'.depth = m.depth) :
    Ends size enough x m := by
  refine .mk hx (fun _ => nofun) ⟨?_, ?_⟩ hd
  · rw [hf]
    exact h.functions
  · rw [hc]
    exact h.methods

/-- Steps in sequence: the second starts at the depth that the first started at. -/
theorem Ends.then {x : Eval α} {f : α → Eval β} (hx : Ends size enough x m)
    (hf : ∀ a m', x m = (.ok a, m') → m'.heap.Tame size → m'.depth = m.depth → Ends size enough (f a) m') :
    Ends size enough (x >>= f) m := by
  obtain ⟨hx, hr, ht, hd⟩ := hx
  rename_i r m'
  cases r with
  | error halt =>
    refine .mk (bind_error hx) (fun he heq => hr he ?_) ht hd
    cases heq
    rfl
  | ok a =>
    obtain ⟨hfx, hr', ht', hd'⟩ := hf a m' hx ht hd
    exact .mk ((bind_ok hx).trans hfx) hr' ht' (hd'.trans hd)

theorem Ends.bind {x : Eval α} {f : α → Eval β} (hx : Ends size enough x m)
    (hf : ∀ a m', m'.heap.Tame size → m'.depth = m.depth → Ends size enough (f a) m') : Ends size enough (x >>= f) m :=
  hx.then fun a m' _ => hf a m'

theorem Ends.get {f : Machine → Eval β} (h : Ends size enough (f m) m) : Ends size enough (MonadState.get >>= f) m := by
  obtain ⟨hx, hr, ht, hd⟩ := h
  exact .mk ((get_bind f m).trans hx) hr ht hd

theorem Ends.imp {enough' : Prop} {x : Eval α} (h : Ends size enough x m) (himp : enough' → enough) :
    Ends size enough' x m := by
  obtain ⟨hx, hr, ht, hd⟩ := h
  exact .mk hx (fun he => hr (himp he)) ht hd

theorem Ends.inScope {x : Eval α} {scope : ScopeId} (h : Ends size enough x { m with scope }) :
    Ends size enough (inScope scope x) m := by
  obtain ⟨hx, hr, ht, hd⟩ := h
  exact .mk (inScope_run hx) hr ht hd

/-- A call is made one level deeper, and the level is left again. -/
theorem Ends.deeper {x : Eval α} (h : Ends size enough x { m with depth := m.depth + 1 }) :
    Ends size enough (deeper x) m := by
  obtain ⟨hx, hr, ht, hd⟩ := h
  exact .mk (deeper_restored hx hd) hr ht rfl

/-! ## Single steps -/

theorem lookup_ends (h : m.heap.Tame size) (name : Name) : Ends size enough (lookup name) m := by
  refine Ends.get ?_
  split
  · exact .pure h
  · exact .fail h _ _

theorem assign_ends (h : m.heap.Tame size) (name : Name) (value : Value) : Ends size enough (assign name value) m := by
  refine Ends.get ?_
  split
  · exact .change h rfl rfl rfl rfl
  · exact .fail h _ _

theorem define_ends (h : m.heap.Tame size) (name : Bytes) (value : Value) : Ends size enough (define name value) m :=
  .change h rfl rfl rfl rfl

theorem newScope_ends (h : m.heap.Tame size) (outer : ScopeId) (bindings : Table Value) :
    Ends size enough (newScope outer bindings) m :=
  .change h rfl rfl rfl rfl

theorem newFunction_ends (h : m.heap.Tame size) {c : Closure} (hc : c.declaration.Tame size) :
    Ends size enough (newFunction c) m := by
  refine .mk rfl (fun _ => nofun) ⟨fun id c' hc' => ?_, h.methods⟩ rfl
  rcases push_cases hc' with ⟨-, rfl⟩ | hold
  · exact hc
  · exact h.functions id c' hold

theorem newClass_ends (h : m.heap.Tame size) {info : ClassInfo}
    (hi : ∀ name c, info.methods.get? name = some c → c.declaration.Tame size) : Ends size enough (newClass info) m := by
  refine .mk rfl (fun _ => nofun) ⟨h.functions, fun id info' name c hinfo hc => ?_⟩ rfl
  rcases push_cases hinfo with ⟨-, rfl⟩ | hold
  · exact hi name c hc
  · exact h.methods id info' name c hold hc

/-- Binding a receiver leaves the declaration as it is. -/
theorem bindReceiver_run (method : Closure) (receiver : ObjectId) {c : Closure} {m' : Machine}
    (h : bindReceiver method receiver m = (.ok c, m')) : c.declaration = method.declaration := by
  cases h
  rfl

theorem bindReceiver_ends (h : m.heap.Tame size) (method : Closure) (receiver : ObjectId) :
    Ends size enough (bindReceiver method receiver) m :=
  (newScope_ends h _ _).bind fun _ _ h₁ _ => .pure h₁

theorem bindMethod_ends (h : m.heap.Tame size) {method : Closure} (hm : method.declaration.Tame size)
    (receiver : ObjectId) : Ends size enough (bindMethod method receiver) m := by
  refine (bindReceiver_ends h method receiver).then fun c m₁ hrun h₁ _ => newFunction_ends h₁ ?_
  rw [bindReceiver_run method receiver hrun]
  exact hm

theorem applyUnary_ends (h : m.heap.Tame size) (op : UnaryOp) (line : Nat) (v : Value) :
    Ends size enough (applyUnary op line v) m := by
  unfold applyUnary
  split
  · exact .pure h
  · exact .pure h
  · exact .fail h _ _

theorem numbers_ends (h : m.heap.Tame size) (line : Nat) (f : Float → Float → Value) (l r : Value) :
    Ends size enough (numbers line f l r) m := by
  unfold numbers
  split
  · exact .pure h
  · exact .fail h _ _

theorem applyBinary_ends (h : m.heap.Tame size) (op : BinaryOp) (line : Nat) (l r : Value) :
    Ends size enough (applyBinary op line l r) m := by
  cases op with
  | equal => exact .pure h
  | notEqual => exact .pure h
  | add =>
    simp only [applyBinary]
    split
    · exact .pure h
    · exact .pure h
    · exact .fail h _ _
  | _ => exact numbers_ends h line _ l r

theorem expectObject_ends (h : m.heap.Tame size) (line : Nat) (fault : RuntimeFault) (v : Value) :
    Ends size enough (expectObject line fault v) m := by
  unfold expectObject
  split
  · exact .pure h
  · exact .fail h _ _

theorem getProperty_ends (h : m.heap.Tame size) (id : ObjectId) (name : Name) :
    Ends size enough (getProperty id name) m := by
  refine Ends.get ?_
  simp only
  split
  · exact .fail h _ _
  · split
    · exact .pure h
    · split
      · rename_i method hmethod
        exact bindMethod_ends h (h.methodWithin? hmethod) id
      · exact .fail h _ _

theorem superMethod_ends (h : m.heap.Tame size) (line : Nat) (method : Name) :
    Ends size enough (superMethod line method) m := by
  refine (lookup_ends h _).bind fun value m₁ h₁ _ => ?_
  split
  · refine (lookup_ends h₁ _).bind fun this m₂ h₂ _ => (expectObject_ends h₂ _ _ _).bind fun receiver m₃ h₃ _ => Ends.get ?_
    split
    · rename_i found hfound
      exact bindMethod_ends h₃ (h₃.methodWithin? hfound) receiver
    · exact .fail h₃ _ _
  · exact .fail h₁ _ _

theorem checkCall_ends (h : m.heap.Tame size) (callee : Value) (count line : Nat) :
    Ends size enough (checkCall callee count line) m := by
  refine Ends.get ?_
  split
  · exact .fail h _ _
  · split
    · exact .fail h _ _
    · split
      · exact .fail h _ _
      · exact .pure h

/-- A call is made only where there is room for one. -/
theorem checkCall_depth {callee : Value} {count line : Nat} {m' : Machine}
    (h : checkCall callee count line m = (.ok (), m')) : m.depth < maxDepth := by
  unfold checkCall at h
  rw [get_bind] at h
  cases harity : m.heap.arity? callee with
  | none =>
    rw [harity] at h
    cases h
  | some arity =>
    rw [harity] at h
    dsimp only at h
    split at h
    · cases h
    · split at h
      · cases h
      · omega

theorem callResult_ends (h : m.heap.Tame size) (c : Closure) (completion : Completion) :
    Ends size enough (callResult c completion) m := by
  unfold callResult
  split
  · exact Ends.get (.pure h)
  · cases completion with
    | normal => exact .pure h
    | returned value => exact .pure h

theorem superclass_ends (h : m.heap.Tame size) (parent : Option Name) : Ends size enough (superclass parent) m := by
  cases parent with
  | none => exact .pure h
  | some name =>
    refine (lookup_ends h name).bind fun value m₁ h₁ _ => ?_
    split
    · exact .pure h₁
    · exact .fail h₁ _ _

theorem declareClass_ends (h : m.heap.Tame size) (name : Bytes) (parent : Option ClassId) {methods : List FunctionDecl}
    (hm : ∀ d ∈ methods, d.Tame size) : Ends size enough (declareClass name parent methods) m := by
  have hrest : ∀ (scope : Nat) (m' : Machine), m'.heap.Tame size →
      Ends size enough (newClass ⟨name, parent, methodTable scope methods⟩ >>= define name) m' := by
    intro scope m' h'
    refine (newClass_ends h' fun other c hc => ?_).bind fun value m₁ h₁ _ => define_ends h₁ name value
    exact methodTable_all (P := fun c => c.declaration.Tame size) hm hc
  cases parent with
  | none =>
    rw [declareClass_base]
    exact .get (hrest m.scope m h)
  | some id =>
    rw [declareClass_derived]
    exact .get ((newScope_ends h m.scope _).bind fun scope m₁ h₁ _ => hrest scope m₁ h₁)

end Eval

/-! ## Evaluation -/

open Eval

theorem room_of_depth {size : Nat} {m m' : Machine} (h : m'.depth = m.depth) : room size m' = room size m := by
  rw [room, h, room]

/-- One more call leaves that much less room. -/
theorem room_deeper {size : Nat} {m : Machine} (h : m.depth < maxDepth) :
    room size { m with depth := m.depth + 1 } + (size + 3) = room size m := by
  have hsub : maxDepth - m.depth = (maxDepth - (m.depth + 1)) + 1 := by omega
  simp only [room]
  rw [hsub, Nat.add_mul, Nat.one_mul]

/-- With bound `n`, code that has no loops ends if `n` is above its size and the room for calls. -/
structure AllEnd (size n : Nat) : Prop where
  expr : ∀ {e : Expr} {m : Machine}, m.heap.Tame size → Ends size (sizeOf e + room size m ≤ n) (evalExpr n e) m
  exprs : ∀ {es : List Expr} {m : Machine}, m.heap.Tame size →
    Ends size (sizeOf es + room size m ≤ n) (evalExprs n es) m
  call : ∀ {callee : Value} {args : List Value} {m : Machine}, m.heap.Tame size →
    Ends size (size + 2 + room size m ≤ n) (callValue n callee args) m
  closure : ∀ {c : Closure} {args : List Value} {m : Machine}, m.heap.Tame size → c.declaration.Tame size →
    Ends size (size + 1 + room size m ≤ n) (callClosure n c args) m
  stmt : ∀ {s : Stmt} {m : Machine}, m.heap.Tame size → s.LoopFree → sizeOf s ≤ size →
    Ends size (sizeOf s + room size m ≤ n) (execStmt n s) m
  stmts : ∀ {ss : List Stmt} {m : Machine}, m.heap.Tame size → Stmt.AllLoopFree ss → sizeOf ss ≤ size →
    Ends size (sizeOf ss + room size m ≤ n) (execStmts n ss) m

section

variable {size n : Nat} {m : Machine}

theorem evalExpr_ends (ih : AllEnd size n) {e : Expr} (h : m.heap.Tame size) :
    Ends size (sizeOf e + room size m ≤ n + 1) (evalExpr (n + 1) e) m := by
  -- The room is the same wherever the parts are evaluated.
  have hexpr : ∀ {part : Expr} {m' : Machine}, m'.heap.Tame size → m'.depth = m.depth → sizeOf part < sizeOf e →
      Ends size (sizeOf e + room size m ≤ n + 1) (evalExpr n part) m' := by
    intro part m' h' hd hlt
    refine (ih.expr h').imp fun hn => ?_
    rw [room_of_depth hd]
    omega
  cases e with
  | literal v => exact .pure h
  | var name => exact lookup_ends h name
  | assign name e =>
    refine (hexpr h rfl (by simp +arith)).bind fun value m₁ h₁ _ => ?_
    exact (assign_ends h₁ name value).bind fun _ m₂ h₂ _ => .pure h₂
  | unary op line e =>
    exact (hexpr h rfl (by simp +arith)).bind fun value m₁ h₁ _ => applyUnary_ends h₁ op line value
  | binary op line l r =>
    refine (hexpr h rfl (by simp +arith)).bind fun left m₁ h₁ hd => ?_
    exact (hexpr h₁ hd (by simp +arith)).bind fun right m₂ h₂ _ => applyBinary_ends h₂ op line left right
  | logical op l r =>
    refine (hexpr h rfl (by simp +arith)).bind fun left m₁ h₁ hd => ?_
    split
    · exact .pure h₁
    · exact hexpr h₁ hd (by simp +arith)
  | call f args line =>
    refine (hexpr h rfl (by simp +arith)).bind fun callee m₁ h₁ hd₁ => ?_
    have hargs : Ends size (sizeOf (Expr.call f args line) + room size m ≤ n + 1) (evalExprs n args) m₁ := by
      refine (ih.exprs h₁).imp fun hn => ?_
      rw [room_of_depth hd₁]
      simp only [Expr.call.sizeOf_spec] at hn
      omega
    refine hargs.bind fun values m₂ h₂ hd₂ => ?_
    refine (checkCall_ends h₂ callee values.length line).then fun _ m₃ hcheck h₃ hd₃ => ?_
    refine Ends.deeper ((ih.call (m := { m₃ with depth := m₃.depth + 1 }) h₃).imp fun hn => ?_)
    have hdepth : m₃.depth < maxDepth := hd₃ ▸ checkCall_depth hcheck
    have hroom : room size { m₃ with depth := m₃.depth + 1 } + (size + 3) = room size m₃ := room_deeper hdepth
    rw [← room_of_depth ((hd₃.trans hd₂).trans hd₁)] at hn
    simp only [Expr.call.sizeOf_spec] at hn
    omega
  | get o name =>
    refine (hexpr h rfl (by simp +arith)).bind fun value m₁ h₁ _ => ?_
    exact (expectObject_ends h₁ _ _ value).bind fun id m₂ h₂ _ => getProperty_ends h₂ id name
  | set o name e =>
    refine (hexpr h rfl (by simp +arith)).bind fun value m₁ h₁ hd₁ => ?_
    refine (expectObject_ends h₁ _ _ value).bind fun id m₂ h₂ hd₂ => ?_
    refine (hexpr h₂ (hd₂.trans hd₁) (by simp +arith)).bind fun value' m₃ h₃ _ => ?_
    exact .bind (.change h₃ rfl rfl rfl rfl) fun _ m₄ h₄ _ => .pure h₄
  | this line => exact lookup_ends h _
  | super line method => exact superMethod_ends h line method
  | group e => exact hexpr h rfl (by simp)

theorem evalExprs_ends (ih : AllEnd size n) {es : List Expr} (h : m.heap.Tame size) :
    Ends size (sizeOf es + room size m ≤ n + 1) (evalExprs (n + 1) es) m := by
  cases es with
  | nil => exact .pure h
  | cons e es =>
    refine ((ih.expr h).imp fun hn => ?_).bind fun value m₁ h₁ hd => ?_
    · simp only [List.cons.sizeOf_spec] at hn
      omega
    refine ((ih.exprs h₁).imp fun hn => ?_).bind fun values m₂ h₂ _ => .pure h₂
    rw [room_of_depth hd]
    simp only [List.cons.sizeOf_spec] at hn
    omega

theorem callValue_ends (ih : AllEnd size n) {callee : Value} {args : List Value} (h : m.heap.Tame size) :
    Ends size (size + 2 + room size m ≤ n + 1) (callValue (n + 1) callee args) m := by
  cases callee with
  | function id =>
    refine Ends.get ?_
    split
    · rename_i c hc
      exact (ih.closure h (h.functions id c hc)).imp fun hn => by omega
    · exact .pure h
  | clock => exact .change h rfl rfl rfl rfl
  | classRef id =>
    refine Ends.bind (.change h rfl rfl rfl rfl) fun object m₁ h₁ hd₁ => Ends.get ?_
    split
    · rename_i method hmethod
      have ht := h₁.methodWithin? hmethod
      refine (bindReceiver_ends h₁ method object).then fun c m₂ hrun h₂ hd₂ => ?_
      have hc : c.declaration = method.declaration := bindReceiver_run method object hrun
      refine ((ih.closure h₂ (hc ▸ ht)).imp fun hn => ?_).bind fun _ m₃ h₃ _ => .pure h₃
      rw [room_of_depth (hd₂.trans hd₁)]
      omega
    · exact .pure h₁
  | nil => exact .pure h
  | bool b => exact .pure h
  | number x => exact .pure h
  | string b => exact .pure h
  | object id => exact .pure h

/-- A body is smaller than the bound on functions, so a call takes less than the room for it. -/
theorem callClosure_ends (ih : AllEnd size n) {c : Closure} {args : List Value} (h : m.heap.Tame size)
    (hc : c.declaration.Tame size) : Ends size (size + 1 + room size m ≤ n + 1) (callClosure (n + 1) c args) m := by
  refine (newScope_ends h c.scope _).bind fun scope m₁ h₁ hd => ?_
  have hbody := hc.sizeOf_body
  have hrun : Ends size (size + 1 + room size m ≤ n + 1) (execStmts n c.declaration.body) { m₁ with scope } := by
    refine (ih.stmts (m := { m₁ with scope }) h₁ hc.body (by omega)).imp fun hn => ?_
    have hroom : room size { m₁ with scope } = room size m := room_of_depth hd
    omega
  exact hrun.inScope.bind fun completion m₂ h₂ _ => callResult_ends h₂ c completion

theorem execStmt_ends (ih : AllEnd size n) {s : Stmt} (h : m.heap.Tame size) (hs : s.LoopFree) (hsize : sizeOf s ≤ size) :
    Ends size (sizeOf s + room size m ≤ n + 1) (execStmt (n + 1) s) m := by
  have hexpr : ∀ {e : Expr}, sizeOf e < sizeOf s → Ends size (sizeOf s + room size m ≤ n + 1) (evalExpr n e) m :=
    fun hlt => (ih.expr h).imp fun hn => by omega
  have hstmt : ∀ {part : Stmt} {m' : Machine}, m'.heap.Tame size → m'.depth = m.depth → part.LoopFree →
      sizeOf part < sizeOf s → Ends size (sizeOf s + room size m ≤ n + 1) (execStmt n part) m' := by
    intro part m' h' hd hpart hlt
    refine (ih.stmt h' hpart (by omega)).imp fun hn => ?_
    rw [room_of_depth hd]
    omega
  cases s with
  | expression e => exact (hexpr (by simp)).bind fun _ m₁ h₁ _ => .pure h₁
  | print e =>
    refine (hexpr (by simp)).bind fun value m₁ h₁ _ => ?_
    exact .bind (.change h₁ rfl rfl rfl rfl) fun _ m₂ h₂ _ => .pure h₂
  | var name init =>
    have hdefine : ∀ (value : Value) (m₁ : Machine), m₁.heap.Tame size → m₁.depth = m.depth →
        Ends size (sizeOf (Stmt.var name init) + room size m ≤ n + 1)
          (define name.text value >>= fun _ => pure Completion.normal) m₁ := fun value m₁ h₁ _ =>
      (define_ends h₁ name.text value).bind fun _ m₂ h₂ _ => .pure h₂
    cases init with
    | none => exact hdefine .nil m h rfl
    | some e => exact (hexpr (by simp +arith)).bind hdefine
  | block body =>
    refine Ends.get ((newScope_ends h m.scope _).bind fun scope m₁ h₁ hd => .inScope ?_)
    simp only [Stmt.block.sizeOf_spec] at hsize ⊢
    refine (ih.stmts (m := { m₁ with scope }) h₁ hs (by omega)).imp fun hn => ?_
    have hroom : room size { m₁ with scope } = room size m := room_of_depth hd
    omega
  | ifElse condition thenBranch elseBranch =>
    refine (hexpr (by simp +arith)).bind fun value m₁ h₁ hd => ?_
    cases elseBranch with
    | none =>
      split
      · exact hstmt h₁ hd hs (by simp +arith)
      · exact .pure h₁
    | some e =>
      split
      · exact hstmt h₁ hd hs.1 (by simp +arith)
      · exact hstmt h₁ hd hs.2 (by simp +arith)
  | loop condition body => exact hs.elim
  | function d =>
    have hd : d.Tame size := ⟨hs, by simp only [Stmt.function.sizeOf_spec] at hsize; omega⟩
    refine Ends.get ((newFunction_ends h hd).bind fun value m₁ h₁ _ => ?_)
    exact (define_ends h₁ d.name.text value).bind fun _ m₂ h₂ _ => .pure h₂
  | ret value =>
    cases value with
    | none => exact .pure h
    | some e => exact (hexpr (by simp +arith)).bind fun _ m₁ h₁ _ => .pure h₁
  | classDecl name parent methods =>
    have hm : ∀ d ∈ methods, d.Tame size := by
      intro d hd
      have hlt := List.sizeOf_lt_of_mem hd
      simp only [Stmt.classDecl.sizeOf_spec] at hsize
      exact ⟨FunctionDecl.allLoopFree_iff.1 hs d hd, by omega⟩
    refine (superclass_ends h parent).bind fun id m₁ h₁ _ => ?_
    exact (declareClass_ends h₁ name.text id hm).bind fun _ m₂ h₂ _ => .pure h₂

theorem execStmts_ends (ih : AllEnd size n) {ss : List Stmt} (h : m.heap.Tame size) (hs : Stmt.AllLoopFree ss)
    (hsize : sizeOf ss ≤ size) : Ends size (sizeOf ss + room size m ≤ n + 1) (execStmts (n + 1) ss) m := by
  cases ss with
  | nil => exact .pure h
  | cons s rest =>
    simp only [List.cons.sizeOf_spec] at hsize ⊢
    refine ((ih.stmt h hs.1 (by omega)).imp fun hn => by omega).bind fun completion m₁ h₁ hd => ?_
    cases completion with
    | returned value => exact .pure h₁
    | normal =>
      refine (ih.stmts h₁ hs.2 (by omega)).imp fun hn => ?_
      rw [room_of_depth hd]
      omega

end

/-- Code without loops ends with any bound above its size and the room for calls. -/
theorem allEnd (size n : Nat) : AllEnd size n := by
  induction n with
  | zero =>
    refine ⟨?_, ?_, ?_, ?_, ?_, ?_⟩
    · intro e m h
      have hpos : 0 < sizeOf e := by cases e <;> simp +arith
      exact .exhausted h (by omega)
    · intro es m h
      have hpos : 0 < sizeOf es := by cases es <;> simp +arith
      exact .exhausted h (by omega)
    · intro callee args m h
      exact .exhausted h (by omega)
    · intro c args m h _
      exact .exhausted h (by omega)
    · intro s m h _ _
      have hpos : 0 < sizeOf s := by cases s <;> simp +arith
      exact .exhausted h (by omega)
    · intro ss m h _ _
      have hpos : 0 < sizeOf ss := by cases ss <;> simp +arith
      exact .exhausted h (by omega)
  | succ n ih =>
    exact ⟨evalExpr_ends ih, evalExprs_ends ih, callValue_ends ih, callClosure_ends ih, execStmt_ends ih, execStmts_ends ih⟩

/-- A program without loops ends, with a bound that does not depend on what it computes. -/
theorem execProgram_ends {size n : Nat} {program : List Stmt} {m : Machine} (h : m.heap.Tame size)
    (hs : Stmt.AllLoopFree program) (hsize : sizeOf program ≤ size) :
    Ends size (size + room size m ≤ n) (execProgram n program) m := by
  induction program generalizing m with
  | nil => exact .pure h
  | cons s rest ih =>
    simp only [List.cons.sizeOf_spec] at hsize
    refine (((allEnd size n).stmt h hs.1 (by omega)).imp fun hn => by omega).bind fun _ m₁ h₁ hd => ?_
    exact (ih h₁ hs.2 (by omega)).imp fun hn => by rwa [room_of_depth hd]

end Lox
