/-
  Lox.Proofs.Eval.Together — the same code on two machines that differ by empty scopes. It
  does the same on both, step by step, and leaves them alike (`together`). Only where the
  current scope is one that is left out, a statement must not bind a name there.
-/

import Lox.Proofs.Eval.Collapse
import Lox.Proofs.Eval.Run

namespace Lox

structure Machine.Grown (m : Machine) (c c' : Collapse) (m₁ : Machine) : Prop where
  scope : m₁.scope = m.scope
  size_le : m.heap.scopes.all.size ≤ m₁.heap.scopes.all.size
  grows : c.Grows c' m.heap.scopes.all.size

theorem Machine.Grown.refl (m : Machine) (c : Collapse) : m.Grown c c m := ⟨rfl, Nat.le_refl _, .refl _ _⟩

theorem Machine.Grown.trans {m m₁ m₂ : Machine} {c c' c'' : Collapse} (h : m.Grown c c' m₁) (h' : m₁.Grown c' c'' m₂) :
    m.Grown c c'' m₂ :=
  ⟨h'.scope.trans h.scope, Nat.le_trans h.size_le h'.size_le, h.grows.trans h'.grows h.size_le⟩

/-- The current scope is left out after a step if it was before. -/
theorem Machine.Grown.extra {m m' m₁ : Machine} {c c' : Collapse} (h : m.Grown c c' m₁) (hm : m.Collapses c m') :
    c'.extra m₁.scope ↔ c.extra m.scope := by
  rw [h.scope]
  exact h.grows.extra m.scope hm.current

namespace Eval

variable {α β : Type} {c : Collapse} {m m' : Machine}

/-- The steps end in the same way, and leave machines that are alike again. -/
inductive Together (c : Collapse) (x y : Eval α) (m m' : Machine) : Prop
  | mk {r : Except Halt α} {m₁ m₁' : Machine} {c' : Collapse} : x m = (r, m₁) → y m' = (r, m₁') → m.Grown c c' m₁ →
      m₁.Collapses c' m₁' → Together c x y m m'

theorem Together.pure (h : m.Collapses c m') (a : α) : Together c (pure a) (pure a) m m' := .mk rfl rfl (.refl m c) h

theorem Together.fail (h : m.Collapses c m') (line : Nat) (fault : RuntimeFault) :
    Together c (fail line fault : Eval α) (fail line fault) m m' :=
  .mk rfl rfl (.refl m c) h

theorem Together.exhausted (h : m.Collapses c m') : Together c (exhausted : Eval α) exhausted m m' :=
  .mk rfl rfl (.refl m c) h

/-- Steps in sequence: the second pair starts on machines that are alike again. -/
theorem Together.bind {x y : Eval α} {f g : α → Eval β} (hx : Together c x y m m')
    (hf : ∀ a m₁ m₁' c', m.Grown c c' m₁ → m₁.Collapses c' m₁' → Together c' (f a) (g a) m₁ m₁') :
    Together c (x >>= f) (y >>= g) m m' := by
  obtain ⟨hx, hy, hg, hc⟩ := hx
  rename_i r m₁ m₁' c'
  cases r with
  | error halt => exact .mk (bind_error hx) (bind_error hy) hg hc
  | ok a =>
    obtain ⟨hx', hy', hg', hc'⟩ := hf a m₁ m₁' c' hg hc
    exact .mk ((bind_ok hx).trans hx') ((bind_ok hy).trans hy') (hg.trans hg') hc'

theorem Together.get {f g : Machine → Eval β} (h : Together c (f m) (g m') m m') :
    Together c (MonadState.get >>= f) (MonadState.get >>= g) m m' := by
  obtain ⟨hx, hy, hg, hc⟩ := h
  exact .mk hx hy hg hc

/-- Both go into a scope and come back; the second goes by the new number. -/
theorem Together.inScope {x y : Eval α} (hm : m.Collapses c m') {scope scope' : ScopeId}
    (h : Together c x y { m with scope } { m' with scope := scope' }) :
    Together c (inScope scope x) (inScope scope' y) m m' := by
  obtain ⟨hx, hy, hg, hc⟩ := h
  refine .mk (inScope_run hx) (inScope_run hy) ⟨rfl, hg.size_le, hg.grows⟩
    ⟨hc.heap, Nat.lt_of_lt_of_le hm.current hg.size_le, ?_, hc.depth, hc.printed, hc.clock, hc.readings⟩
  exact hm.scope.trans (hg.grows.number m.scope hm.current).symm

theorem Together.deeper {x y : Eval α}
    (h : Together c x y { m with depth := m.depth + 1 } { m' with depth := m'.depth + 1 }) :
    Together c (deeper x) (deeper y) m m' := by
  obtain ⟨hx, hy, hg, hc⟩ := h
  exact .mk (deeper_run hx) (deeper_run hy) ⟨hg.scope, hg.size_le, hg.grows⟩
    ⟨hc.heap, hc.current, hc.scope, congrArg (· - 1) hc.depth, hc.printed, hc.clock, hc.readings⟩

/-! ## Names -/

theorem lookup_together (h : m.Collapses c m') (name : Name) : Together c (lookup name) (lookup name) m m' := by
  refine .get ?_
  rw [h.scope, h.heap.scopes.get? h.current]
  split
  · exact .pure h _
  · exact .fail h _ _

/-- A binding in a scope that stays. -/
theorem modify_together (h : m.Collapses c m') {id : ScopeId} (hid : id < m.heap.scopes.all.size) (hkept : ¬ c.extra id)
    (name : Bytes) (value : Value) :
    Together c
      (modify fun m => { m with heap := { m.heap with scopes := m.heap.scopes.define id name value } } : Eval Unit)
      (modify fun m => { m with heap := { m.heap with scopes := m.heap.scopes.define (c.number id) name value } }) m m' := by
  have hsize : (m.heap.scopes.define id name value).all.size = m.heap.scopes.all.size := Array.size_modify
  have hle := Nat.le_of_eq hsize.symm
  exact .mk rfl rfl ⟨rfl, hle, .refl _ _⟩ ⟨h.heap.withScopes (h.heap.scopes.define hid hkept name value) (.refl _ _) hle,
    Nat.lt_of_lt_of_le h.current hle, h.scope, h.depth, h.printed, h.clock, h.readings⟩

theorem assign_together (h : m.Collapses c m') (name : Name) (value : Value) :
    Together c (assign name value) (assign name value) m m' := by
  have hmoved := h.heap.scopes.holder? h.current name.text
  rw [← h.scope] at hmoved
  cases hholder : m.heap.scopes.holder? m.scope name.text with
  | none =>
    rw [hholder] at hmoved
    exact .mk (assign_unbound hholder) (assign_unbound hmoved) (.refl m c) h
  | some holder =>
    rw [hholder] at hmoved
    obtain ⟨hlt, hkept⟩ := h.heap.scopes.holder_kept hholder
    obtain ⟨hx, hy, hg, hc⟩ := modify_together h hlt hkept name.text value
    exact .mk ((assign_bound hholder).trans hx) ((assign_bound hmoved).trans hy) hg hc

/-- A name is bound in a scope that is kept. -/
theorem define_together (h : m.Collapses c m') (hkept : ¬ c.extra m.scope) (name : Bytes) (value : Value) :
    Together c (define name value) (define name value) m m' := by
  obtain ⟨hx, hy, hg, hc⟩ := modify_together h h.current hkept name value
  refine .mk hx ?_ hg hc
  rw [← hy, ← h.scope]
  rfl

/-! ## New things -/

/-- A new scope that stays. -/
theorem newScope_together (h : m.Collapses c m') {outer outer' : ScopeId} (ho : outer < m.heap.scopes.all.size)
    (heq : outer' = c.number outer) (bindings : Table Value) {f g : ScopeId → Eval α}
    (hf : ∀ id m₁ m₁' c', m.Grown c c' m₁ → m₁.Collapses c' m₁' → id < m₁.heap.scopes.all.size → ¬ c'.extra id →
      Together c' (f id) (g (c'.number id)) m₁ m₁') :
    Together c (newScope outer bindings >>= f) (newScope outer' bindings >>= g) m m' := by
  subst heq
  have hsize := Scopes.size_push m.heap.scopes ⟨some outer, bindings⟩
  have hle : m.heap.scopes.all.size ≤ (m.heap.scopes.push ⟨some outer, bindings⟩).all.size := by omega
  have hgrows : c.Grows (c.push m.heap.scopes.next m'.heap.scopes.next False) m.heap.scopes.all.size :=
    c.push_grows m.heap.scopes.next m'.heap.scopes.next False
  have hgrown : m.Grown c (c.push m.heap.scopes.next m'.heap.scopes.next False)
      { m with heap := { m.heap with scopes := m.heap.scopes.push ⟨some outer, bindings⟩ } } := ⟨rfl, hle, hgrows⟩
  have hstart := hf m.heap.scopes.next _
    { m' with heap := { m'.heap with scopes := m'.heap.scopes.push ⟨some (c.number outer), bindings⟩ } } _ hgrown
    ⟨h.heap.withScopes (h.heap.scopes.push ho bindings) hgrows hle, Nat.lt_of_lt_of_le h.current hle,
      h.scope.trans (hgrows.number m.scope h.current).symm, h.depth, h.printed, h.clock, h.readings⟩
    (by rw [hsize]; exact Nat.lt_succ_self _) (by simp)
  rw [Collapse.push_number] at hstart
  obtain ⟨hx, hy, hg, hc⟩ := hstart
  exact .mk hx hy (hgrown.trans hg) hc

/-- A step in a new scope that is left out: it binds nothing, and the second machine stays where it is. -/
theorem extraScope_together (h : m.Collapses c m') {x y : Eval α}
    (hx : ∀ m₁ c', m₁.Collapses c' m' → Together c' x y m₁ m') :
    Together c (newScope m.scope Table.empty >>= fun scope => inScope scope x) y m m' := by
  have hsize := Scopes.size_push m.heap.scopes ⟨some m.scope, Table.empty⟩
  have hle : m.heap.scopes.all.size ≤ (m.heap.scopes.push ⟨some m.scope, Table.empty⟩).all.size := by omega
  have hgrows : c.Grows (c.push m.heap.scopes.next (c.number m.scope) True) m.heap.scopes.all.size :=
    c.push_grows m.heap.scopes.next (c.number m.scope) True
  obtain ⟨hx, hy, hg, hc⟩ := hx
    { m with heap := { m.heap with scopes := m.heap.scopes.push ⟨some m.scope, Table.empty⟩ }, scope := m.heap.scopes.next }
    (c.push m.heap.scopes.next (c.number m.scope) True)
    ⟨h.heap.withScopes (h.heap.scopes.pushExtra h.current) hgrows hle, by rw [hsize]; exact Nat.lt_succ_self _,
      by rw [Collapse.push_number]; exact h.scope, h.depth, h.printed, h.clock, h.readings⟩
  rename_i r m₁ m₁' c'
  -- The new scope and the one around it go by the same number, before and after.
  have hsame : c'.number m₁.scope = c'.number m.scope := by
    rw [hg.scope, hg.grows.number m.heap.scopes.next (by rw [hsize]; exact Nat.lt_succ_self _),
      hg.grows.number m.scope (Nat.lt_of_lt_of_le h.current hle), Collapse.push_number, hgrows.number m.scope h.current]
  exact .mk (inScope_run hx) hy ⟨rfl, Nat.le_trans hle hg.size_le, hgrows.trans hg.grows hle⟩
    ⟨hc.heap, Nat.lt_of_lt_of_le h.current (Nat.le_trans hle hg.size_le), hc.scope.trans hsame, hc.depth, hc.printed,
      hc.clock, hc.readings⟩

theorem newFunction_together (h : m.Collapses c m') {f f' : Closure} (hf : f.Moves c m.heap.scopes.all.size f') :
    Together c (newFunction f) (newFunction f') m m' := by
  have hsize := h.heap.functions.size_eq
  have hrun : newFunction f' m' = (.ok (.function m.heap.functions.size),
      { m' with heap := { m'.heap with functions := m'.heap.functions.push f' } }) := by
    rw [← hsize]
    rfl
  exact .mk rfl hrun ⟨rfl, Nat.le_refl _, .refl _ _⟩
    ⟨⟨h.heap.scopes, h.heap.functions.push hf, h.heap.classes, h.heap.objects⟩, h.current, h.scope, h.depth, h.printed,
      h.clock, h.readings⟩

theorem newClass_together (h : m.Collapses c m') {info info' : ClassInfo}
    (hi : info.Moves c m.heap.scopes.all.size info') : Together c (newClass info) (newClass info') m m' := by
  have hsize := h.heap.classes.size_eq
  have hrun : newClass info' m' = (.ok (.classRef m.heap.classes.size),
      { m' with heap := { m'.heap with classes := m'.heap.classes.push info' } }) := by
    rw [← hsize]
    rfl
  exact .mk rfl hrun ⟨rfl, Nat.le_refl _, .refl _ _⟩
    ⟨⟨h.heap.scopes, h.heap.functions, h.heap.classes.push hi, h.heap.objects⟩, h.current, h.scope, h.depth, h.printed,
      h.clock, h.readings⟩

/-- Objects are the same in both. -/
theorem objects_together (h : m.Collapses c m') {x y : Eval α} {a : α} {objects : Array Object}
    (hx : x m = (.ok a, { m with heap := { m.heap with objects } }))
    (hy : y m' = (.ok a, { m' with heap := { m'.heap with objects } })) : Together c x y m m' :=
  .mk hx hy ⟨rfl, Nat.le_refl _, .refl _ _⟩
    ⟨⟨h.heap.scopes, h.heap.functions, h.heap.classes, rfl⟩, h.current, h.scope, h.depth, h.printed, h.clock, h.readings⟩

theorem newObject_together (h : m.Collapses c m') (classId : ClassId) :
    Together c (newObject classId) (newObject classId) m m' := by
  refine objects_together h rfl ?_
  rw [← h.heap.objects]
  rfl

theorem setField_together (h : m.Collapses c m') (id : ObjectId) (name : Bytes) (value : Value) :
    Together c (setField id name value) (setField id name value) m m' := by
  refine objects_together h rfl ?_
  rw [← h.heap.objects]
  rfl

theorem bindReceiver_together (h : m.Collapses c m') {f f' : Closure} (hf : f.Moves c m.heap.scopes.all.size f')
    (receiver : ObjectId) {u v : Closure → Eval α}
    (hu : ∀ g g' m₁ m₁' c', m.Grown c c' m₁ → m₁.Collapses c' m₁' → g.Moves c' m₁.heap.scopes.all.size g' →
      Together c' (u g) (v g') m₁ m₁') :
    Together c (bindReceiver f receiver >>= u) (bindReceiver f' receiver >>= v) m m' := by
  have hdecl : f' = { f with scope := c.number f.scope } := hf.eq
  have hscope : f'.scope = c.number f.scope := by rw [hdecl]
  refine newScope_together (f := fun scope => u { f with scope }) (g := fun scope => v { f' with scope }) h hf.exists_scope
    hscope _ fun id m₁ m₁' c' hg hc hid hkept => ?_
  exact hu _ _ m₁ m₁' c' hg hc ⟨hid, hkept, by rw [hdecl]⟩

theorem bindMethod_together (h : m.Collapses c m') {f f' : Closure} (hf : f.Moves c m.heap.scopes.all.size f')
    (receiver : ObjectId) : Together c (bindMethod f receiver) (bindMethod f' receiver) m m' :=
  bindReceiver_together h hf receiver fun _ _ _ _ _ _ hc hm => newFunction_together hc hm

/-! ## Operators and objects -/

theorem numbers_together (h : m.Collapses c m') (line : Nat) (op : Float → Float → Value) (l r : Value) :
    Together c (numbers line op l r) (numbers line op l r) m m' := by
  unfold numbers
  split
  · exact .pure h _
  · exact .fail h _ _

theorem applyUnary_together (h : m.Collapses c m') (op : UnaryOp) (line : Nat) (v : Value) :
    Together c (applyUnary op line v) (applyUnary op line v) m m' := by
  unfold applyUnary
  split
  · exact .pure h _
  · exact .pure h _
  · exact .fail h _ _

theorem applyBinary_together (h : m.Collapses c m') (op : BinaryOp) (line : Nat) (l r : Value) :
    Together c (applyBinary op line l r) (applyBinary op line l r) m m' := by
  cases op with
  | equal => exact .pure h _
  | notEqual => exact .pure h _
  | add =>
    simp only [applyBinary]
    split
    · exact .pure h _
    · exact .pure h _
    · exact .fail h _ _
  | _ => exact numbers_together h line _ l r

theorem expectObject_together (h : m.Collapses c m') (line : Nat) (fault : RuntimeFault) (v : Value) :
    Together c (expectObject line fault v) (expectObject line fault v) m m' := by
  unfold expectObject
  split
  · exact .pure h _
  · exact .fail h _ _

/-- A method that both find is bound on both. -/
theorem foundMethod_together (h : m.Collapses c m') (id : ClassId) (name : Bytes) (receiver : ObjectId) (line : Nat)
    (fault : RuntimeFault) :
    Together c (match m.heap.method? id name with
        | some method => bindMethod method receiver
        | none => fail line fault)
      (match m'.heap.method? id name with
        | some method => bindMethod method receiver
        | none => fail line fault) m m' := by
  obtain ⟨hx, hy⟩ | ⟨f, f', hx, hy, hf⟩ := rel_cases (h.heap.method? id name)
  · rw [hx, hy]
    exact .fail h _ _
  · rw [hx, hy]
    exact bindMethod_together h hf receiver

theorem getProperty_together (h : m.Collapses c m') (id : ObjectId) (name : Name) :
    Together c (getProperty id name) (getProperty id name) m m' := by
  refine .get ?_
  dsimp only
  rw [h.heap.objects]
  cases m.heap.objects[id]? with
  | none => exact .fail h _ _
  | some object =>
    dsimp only
    cases object.fields.get? name.text with
    | some value => exact .pure h value
    | none => exact foundMethod_together h object.classId name.text id _ _

theorem superMethod_together (h : m.Collapses c m') (line : Nat) (method : Name) :
    Together c (superMethod line method) (superMethod line method) m m' := by
  refine (lookup_together h _).bind fun value m₁ m₁' c₁ _ h₁ => ?_
  split
  · rename_i parent
    refine (lookup_together h₁ _).bind fun this m₂ m₂' c₂ _ h₂ => ?_
    refine (expectObject_together h₂ _ _ this).bind fun receiver m₃ m₃' c₃ _ h₃ => .get ?_
    exact foundMethod_together h₃ parent method.text receiver _ _
  · exact .fail h₁ _ _

theorem print_together (h : m.Collapses c m') (value : Value) : Together c (print value) (print value) m m' := by
  have hrun : print value m' = (.ok (), { m' with printed := m.printed.push (m.heap.render value) }) := by
    rw [← h.printed, ← h.heap.render]
    rfl
  exact .mk rfl hrun ⟨rfl, Nat.le_refl _, .refl _ _⟩ ⟨h.heap, h.current, h.scope, h.depth, rfl, h.clock, h.readings⟩

theorem readClock_together (h : m.Collapses c m') : Together c readClock readClock m m' := by
  have hrun : readClock m' = (.ok (.number (m.clock m.readings)), { m' with readings := m.readings + 1 }) := by
    rw [← h.clock, ← h.readings]
    rfl
  exact .mk rfl hrun ⟨rfl, Nat.le_refl _, .refl _ _⟩ ⟨h.heap, h.current, h.scope, h.depth, h.printed, h.clock, rfl⟩

theorem checkCall_together (h : m.Collapses c m') (callee : Value) (count line : Nat) :
    Together c (checkCall callee count line) (checkCall callee count line) m m' := by
  refine .get ?_
  rw [h.heap.arity?, h.depth]
  split
  · exact .fail h _ _
  · split
    · exact .fail h _ _
    · split
      · exact .fail h _ _
      · exact .pure h ()

theorem callResult_together (h : m.Collapses c m') {f f' : Closure} (hf : f.Moves c m.heap.scopes.all.size f')
    (completion : Completion) : Together c (callResult f completion) (callResult f' completion) m m' := by
  have hown := h.heap.scopes.own? hf.exists_scope hf.kept thisName
  rw [hf.eq]
  unfold callResult
  dsimp only
  split
  · refine .get ?_
    rw [hown]
    exact .pure h _
  · cases completion with
    | normal => exact .pure h _
    | returned value => exact .pure h _

/-! ## Classes -/

theorem superclass_together (h : m.Collapses c m') (parent : Option Name) :
    Together c (superclass parent) (superclass parent) m m' := by
  cases parent with
  | none => exact .pure h none
  | some name =>
    refine (lookup_together h name).bind fun value m₁ m₁' c₁ _ h₁ => ?_
    split
    · exact .pure h₁ _
    · exact .fail h₁ _ _

theorem methodTable_moves {size : Nat} {scope : ScopeId} (hscope : scope < size) (hkept : ¬ c.extra scope)
    (methods : List FunctionDecl) (name : Bytes) :
    Option.Rel (Closure.Moves c size) ((methodTable scope methods).get? name)
      ((methodTable (c.number scope) methods).get? name) := by
  have hfold : ∀ table table' : Table Closure,
      (∀ name, Option.Rel (Closure.Moves c size) (table.get? name) (table'.get? name)) →
      Option.Rel (Closure.Moves c size)
        ((methods.foldl (fun table d => table.insert d.name.text ⟨d, scope, d.name.text == initializerName⟩) table).get? name)
        ((methods.foldl
          (fun table d => table.insert d.name.text ⟨d, c.number scope, d.name.text == initializerName⟩) table').get? name) := by
    induction methods with
    | nil => exact fun table table' h => h name
    | cons d methods ih =>
      intro table table' h
      refine ih _ _ fun other => ?_
      rw [Table.get?_insert, Table.get?_insert]
      split
      · exact .some ⟨hscope, hkept, rfl⟩
      · exact h other
  exact hfold Table.empty Table.empty fun _ => .none

/-- A class is declared in a scope that is kept, so its methods move with it. -/
theorem declareClass_together (h : m.Collapses c m') (hkept : ¬ c.extra m.scope) (name : Bytes) (parent : Option ClassId)
    (methods : List FunctionDecl) :
    Together c (declareClass name parent methods) (declareClass name parent methods) m m' := by
  have hrest : ∀ (scope : ScopeId) (m₁ m₁' : Machine) (c₁ : Collapse), m.Grown c c₁ m₁ → m₁.Collapses c₁ m₁' →
      scope < m₁.heap.scopes.all.size → ¬ c₁.extra scope →
      Together c₁ (newClass ⟨name, parent, methodTable scope methods⟩ >>= define name)
        (newClass ⟨name, parent, methodTable (c₁.number scope) methods⟩ >>= define name) m₁ m₁' := by
    intro scope m₁ m₁' c₁ hg h₁ hscope hkept₁
    have hmoves : ClassInfo.Moves c₁ m₁.heap.scopes.all.size ⟨name, parent, methodTable scope methods⟩
        ⟨name, parent, methodTable (c₁.number scope) methods⟩ := ⟨rfl, rfl, methodTable_moves hscope hkept₁ methods⟩
    refine (newClass_together h₁ hmoves).bind fun value m₂ m₂' c₂ hg' h₂ => ?_
    refine define_together h₂ (fun he => hkept ?_) name value
    exact (hg.extra h).mp ((hg'.extra h₁).mp he)
  cases parent with
  | none =>
    rw [declareClass_base]
    refine .get ?_
    rw [h.scope]
    exact hrest m.scope m m' c (.refl m c) h h.current hkept
  | some id =>
    rw [declareClass_derived]
    exact .get (newScope_together h h.current h.scope _ hrest)

end Eval

/-! ## Evaluation -/

open Eval

/-- The statement binds no name in the scope it is run in. -/
def Stmt.Undeclaring : Stmt → Prop
  | .var _ _ => False
  | .function _ => False
  | .classDecl _ _ _ => False
  | .ifElse _ t none => t.Undeclaring
  | .ifElse _ t (some e) => t.Undeclaring ∧ e.Undeclaring
  | .loop _ b => b.Undeclaring
  | _ => True

/-- With bound `n`, code does the same on machines that are alike. -/
structure AllTogether (n : Nat) : Prop where
  expr : ∀ {e : Expr} {c : Collapse} {m m' : Machine}, m.Collapses c m' → Together c (evalExpr n e) (evalExpr n e) m m'
  exprs : ∀ {es : List Expr} {c : Collapse} {m m' : Machine}, m.Collapses c m' →
    Together c (evalExprs n es) (evalExprs n es) m m'
  call : ∀ {callee : Value} {args : List Value} {c : Collapse} {m m' : Machine}, m.Collapses c m' →
    Together c (callValue n callee args) (callValue n callee args) m m'
  closure : ∀ {f f' : Closure} {args : List Value} {c : Collapse} {m m' : Machine}, m.Collapses c m' →
    f.Moves c m.heap.scopes.all.size f' → Together c (callClosure n f args) (callClosure n f' args) m m'
  stmt : ∀ {s : Stmt} {c : Collapse} {m m' : Machine}, m.Collapses c m' → (c.extra m.scope → s.Undeclaring) →
    Together c (execStmt n s) (execStmt n s) m m'
  stmts : ∀ {ss : List Stmt} {c : Collapse} {m m' : Machine}, m.Collapses c m' →
    (c.extra m.scope → ∀ s ∈ ss, s.Undeclaring) → Together c (execStmts n ss) (execStmts n ss) m m'
  loop : ∀ {e : Expr} {s : Stmt} {c : Collapse} {m m' : Machine}, m.Collapses c m' → (c.extra m.scope → s.Undeclaring) →
    Together c (execLoop n e s) (execLoop n e s) m m'

section

variable {n : Nat} {c : Collapse} {m m' : Machine}

theorem evalExpr_together (ih : AllTogether n) {e : Expr} (h : m.Collapses c m') :
    Together c (evalExpr (n + 1) e) (evalExpr (n + 1) e) m m' := by
  cases e with
  | literal v => exact .pure h _
  | var name => exact lookup_together h name
  | assign name e =>
    refine (ih.expr h).bind fun value m₁ m₁' c₁ _ h₁ => ?_
    exact (assign_together h₁ name value).bind fun _ m₂ m₂' c₂ _ h₂ => .pure h₂ value
  | unary op line e => exact (ih.expr h).bind fun value m₁ m₁' c₁ _ h₁ => applyUnary_together h₁ op line value
  | binary op line l r =>
    refine (ih.expr h).bind fun left m₁ m₁' c₁ _ h₁ => ?_
    exact (ih.expr h₁).bind fun right m₂ m₂' c₂ _ h₂ => applyBinary_together h₂ op line left right
  | logical op l r =>
    refine (ih.expr h).bind fun left m₁ m₁' c₁ _ h₁ => ?_
    split
    · exact .pure h₁ left
    · exact ih.expr h₁
  | call f args line =>
    refine (ih.expr h).bind fun callee m₁ m₁' c₁ _ h₁ => ?_
    refine (ih.exprs h₁).bind fun values m₂ m₂' c₂ _ h₂ => ?_
    refine (checkCall_together h₂ callee values.length line).bind fun _ m₃ m₃' c₃ _ h₃ => ?_
    refine .deeper (ih.call ⟨h₃.heap, h₃.current, h₃.scope, ?_, h₃.printed, h₃.clock, h₃.readings⟩)
    exact congrArg (· + 1) h₃.depth
  | get o name =>
    refine (ih.expr h).bind fun value m₁ m₁' c₁ _ h₁ => ?_
    exact (expectObject_together h₁ _ _ value).bind fun id m₂ m₂' c₂ _ h₂ => getProperty_together h₂ id name
  | set o name e =>
    refine (ih.expr h).bind fun value m₁ m₁' c₁ _ h₁ => ?_
    refine (expectObject_together h₁ _ _ value).bind fun id m₂ m₂' c₂ _ h₂ => ?_
    refine (ih.expr h₂).bind fun value' m₃ m₃' c₃ _ h₃ => ?_
    exact (setField_together h₃ id name.text value').bind fun _ m₄ m₄' c₄ _ h₄ => .pure h₄ value'
  | this line => exact lookup_together h _
  | super line method => exact superMethod_together h line method
  | group e => exact ih.expr h

theorem evalExprs_together (ih : AllTogether n) {es : List Expr} (h : m.Collapses c m') :
    Together c (evalExprs (n + 1) es) (evalExprs (n + 1) es) m m' := by
  cases es with
  | nil => exact .pure h []
  | cons e es =>
    refine (ih.expr h).bind fun value m₁ m₁' c₁ _ h₁ => ?_
    exact (ih.exprs h₁).bind fun values m₂ m₂' c₂ _ h₂ => .pure h₂ (value :: values)

theorem callValue_together (ih : AllTogether n) {callee : Value} {args : List Value} (h : m.Collapses c m') :
    Together c (callValue (n + 1) callee args) (callValue (n + 1) callee args) m m' := by
  cases callee with
  | function id =>
    refine .get ?_
    obtain ⟨hx, hy⟩ | ⟨f, f', hx, hy, hf⟩ := rel_cases (h.heap.functions id)
    · rw [hx, hy]
      exact .pure h Value.nil
    · rw [hx, hy]
      exact ih.closure h hf
  | clock => exact readClock_together h
  | classRef id =>
    refine (newObject_together h id).bind fun object m₁ m₁' c₁ _ h₁ => .get ?_
    obtain ⟨hx, hy⟩ | ⟨f, f', hx, hy, hf⟩ := rel_cases (h₁.heap.method? id initializerName)
    · rw [hx, hy]
      exact .pure h₁ _
    · rw [hx, hy]
      refine bindReceiver_together h₁ hf object fun g g' m₂ m₂' c₂ _ h₂ hg => ?_
      exact (ih.closure h₂ hg).bind fun _ m₃ m₃' c₃ _ h₃ => .pure h₃ _
  | nil => exact .pure h Value.nil
  | bool b => exact .pure h Value.nil
  | number x => exact .pure h Value.nil
  | string b => exact .pure h Value.nil
  | object id => exact .pure h Value.nil

theorem callClosure_together (ih : AllTogether n) {f f' : Closure} {args : List Value} (h : m.Collapses c m')
    (hf : f.Moves c m.heap.scopes.all.size f') :
    Together c (callClosure (n + 1) f args) (callClosure (n + 1) f' args) m m' := by
  have hdecl : f' = { f with scope := c.number f.scope } := hf.eq
  have hbody : f'.declaration = f.declaration := by rw [hdecl]
  have hscope : f'.scope = c.number f.scope := by rw [hdecl]
  unfold callClosure
  rw [hbody]
  refine newScope_together h hf.exists_scope hscope _ fun id m₁ m₁' c₁ hg h₁ hid hkept => ?_
  refine Together.bind (.inScope h₁ (ih.stmts ?_ fun he => absurd he hkept)) fun completion m₂ m₂' c₂ hg' h₂ => ?_
  · exact ⟨h₁.heap, hid, rfl, h₁.depth, h₁.printed, h₁.clock, h₁.readings⟩
  · exact callResult_together h₂ ((hf.mono hg.grows hg.size_le).mono hg'.grows hg'.size_le) completion

/-- In a scope that is left out no statement may declare anything. -/
theorem execStmt_together (ih : AllTogether n) {s : Stmt} (h : m.Collapses c m') (hs : c.extra m.scope → s.Undeclaring) :
    Together c (execStmt (n + 1) s) (execStmt (n + 1) s) m m' := by
  cases s with
  | expression e => exact (ih.expr h).bind fun _ m₁ m₁' c₁ _ h₁ => .pure h₁ _
  | print e =>
    refine (ih.expr h).bind fun value m₁ m₁' c₁ _ h₁ => ?_
    exact (print_together h₁ value).bind fun _ m₂ m₂' c₂ _ h₂ => .pure h₂ _
  | var name init =>
    have hdefine : ∀ (value : Value) (m₁ m₁' : Machine) (c₁ : Collapse), m.Grown c c₁ m₁ → m₁.Collapses c₁ m₁' →
        Together c₁ (define name.text value >>= fun _ => pure Completion.normal)
          (define name.text value >>= fun _ => pure Completion.normal) m₁ m₁' := by
      intro value m₁ m₁' c₁ hg h₁
      exact (define_together h₁ (fun he => hs ((hg.extra h).mp he)) name.text value).bind
        fun _ m₂ m₂' c₂ _ h₂ => .pure h₂ _
    cases init with
    | none => exact hdefine .nil m m' c (.refl m c) h
    | some e => exact (ih.expr h).bind hdefine
  | block body =>
    refine .get (newScope_together h h.current h.scope _ fun id m₁ m₁' c₁ _ h₁ hid hkept => .inScope h₁ ?_)
    exact ih.stmts ⟨h₁.heap, hid, rfl, h₁.depth, h₁.printed, h₁.clock, h₁.readings⟩ fun he => absurd he hkept
  | ifElse condition thenBranch elseBranch =>
    refine (ih.expr h).bind fun value m₁ m₁' c₁ hg h₁ => ?_
    cases elseBranch with
    | none =>
      split
      · exact ih.stmt h₁ fun he => hs ((hg.extra h).mp he)
      · exact .pure h₁ _
    | some e =>
      split
      · exact ih.stmt h₁ fun he => (hs ((hg.extra h).mp he)).1
      · exact ih.stmt h₁ fun he => (hs ((hg.extra h).mp he)).2
  | loop condition body => exact ih.loop h hs
  | function d =>
    have hkept : ¬ c.extra m.scope := hs
    refine .get ((newFunction_together h ⟨h.current, hkept, by rw [h.scope]⟩).bind fun value m₁ m₁' c₁ hg h₁ => ?_)
    exact (define_together h₁ (fun he => hkept ((hg.extra h).mp he)) d.name.text value).bind
      fun _ m₂ m₂' c₂ _ h₂ => .pure h₂ _
  | ret value =>
    cases value with
    | none => exact .pure h _
    | some e => exact (ih.expr h).bind fun _ m₁ m₁' c₁ _ h₁ => .pure h₁ _
  | classDecl name parent methods =>
    refine (superclass_together h parent).bind fun id m₁ m₁' c₁ hg h₁ => ?_
    exact (declareClass_together h₁ (fun he => hs ((hg.extra h).mp he)) name.text id methods).bind
      fun _ m₂ m₂' c₂ _ h₂ => .pure h₂ _

theorem execStmts_together (ih : AllTogether n) {ss : List Stmt} (h : m.Collapses c m')
    (hs : c.extra m.scope → ∀ s ∈ ss, s.Undeclaring) :
    Together c (execStmts (n + 1) ss) (execStmts (n + 1) ss) m m' := by
  cases ss with
  | nil => exact .pure h _
  | cons s rest =>
    refine (ih.stmt h fun he => hs he s List.mem_cons_self).bind fun completion m₁ m₁' c₁ hg h₁ => ?_
    cases completion with
    | returned value => exact .pure h₁ _
    | normal => exact ih.stmts h₁ fun he s' hs' => hs ((hg.extra h).mp he) s' (List.mem_cons_of_mem s hs')

theorem execLoop_together (ih : AllTogether n) {e : Expr} {s : Stmt} (h : m.Collapses c m')
    (hs : c.extra m.scope → s.Undeclaring) : Together c (execLoop (n + 1) e s) (execLoop (n + 1) e s) m m' := by
  refine (ih.expr h).bind fun value m₁ m₁' c₁ hg h₁ => ?_
  split
  · refine (ih.stmt h₁ fun he => hs ((hg.extra h).mp he)).bind fun completion m₂ m₂' c₂ hg' h₂ => ?_
    cases completion with
    | returned value => exact .pure h₂ _
    | normal => exact ih.loop h₂ fun he => hs ((hg.extra h).mp ((hg'.extra h₁).mp he))
  · exact .pure h₁ _

end

/-- However deep it nests, code leaves machines alike. -/
theorem together (n : Nat) : AllTogether n := by
  induction n with
  | zero => exact ⟨.exhausted, .exhausted, .exhausted, fun h _ => .exhausted h, fun h _ => .exhausted h,
      fun h _ => .exhausted h, fun h _ => .exhausted h⟩
  | succ n ih => exact ⟨evalExpr_together ih, evalExprs_together ih, callValue_together ih, callClosure_together ih,
      execStmt_together ih, execStmts_together ih, execLoop_together ih⟩

end Lox
