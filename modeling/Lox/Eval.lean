/-
  Lox.Eval — running a program. The machine holds the heap, the current scope, the number
  of calls in progress, what has been printed, and the clock. Scope and depth are left as
  they were found on every way out of a block (`inScope`) and of a call (`deeper`).

  Programs need not end, so every step takes a number that bounds how deep evaluation may
  nest and how often loops may turn; a run that needs more ends as `exhausted`.
-/

import Lox.Heap
import Lox.Report

namespace Lox

inductive Halt where
  | fault (error : RuntimeError)
  | exhausted

structure Machine where
  heap : Heap
  scope : ScopeId := Heap.globals
  /-- How many calls are in progress. -/
  depth : Nat := 0
  /-- Oldest first. -/
  printed : Array Bytes := #[]
  /-- What the clock shows at its first reading, its second, and so on. -/
  clock : Nat → Float
  /-- How often the clock has been read. -/
  readings : Nat := 0

abbrev Eval := ExceptT Halt (StateM Machine)

/-- How a statement ends. -/
inductive Completion where
  | normal
  | returned (value : Value)

namespace Eval

def maxDepth : Nat := 1000

def fail {α : Type} (line : Nat) (fault : RuntimeFault) : Eval α := throw (.fault ⟨line, fault⟩)

def exhausted {α : Type} : Eval α := throw .exhausted

/-! ## Names -/

def lookup (name : Name) : Eval Value := do
  let m ← get
  match m.heap.scopes.get? m.scope name.text with
  | some value => return value
  | none => fail name.line (.undefinedVariable name.text)

def assign (name : Name) (value : Value) : Eval Unit := do
  let m ← get
  match m.heap.scopes.assign? m.scope name.text value with
  | some scopes => set { m with heap := { m.heap with scopes } }
  | none => fail name.line (.undefinedVariable name.text)

def define (name : Bytes) (value : Value) : Eval Unit :=
  modify fun m => { m with heap := { m.heap with scopes := m.heap.scopes.define m.scope name value } }

/-! ## Making things -/

def newScope (enclosing : ScopeId) (bindings : Table Value) : Eval ScopeId :=
  modifyGet fun m =>
    (m.heap.scopes.next, { m with heap := { m.heap with scopes := m.heap.scopes.push ⟨some enclosing, bindings⟩ } })

def newFunction (closure : Closure) : Eval Value :=
  modifyGet fun m =>
    (.function m.heap.functions.size, { m with heap := { m.heap with functions := m.heap.functions.push closure } })

def newClass (info : ClassInfo) : Eval Value :=
  modifyGet fun m =>
    (.classRef m.heap.classes.size, { m with heap := { m.heap with classes := m.heap.classes.push info } })

def newObject (classId : ClassId) : Eval ObjectId :=
  modifyGet fun m =>
    (m.heap.objects.size, { m with heap := { m.heap with objects := m.heap.objects.push ⟨classId, {}⟩ } })

/-- A method with its receiver bound in a scope of its own. -/
def bindReceiver (method : Closure) (receiver : ObjectId) : Eval Closure := do
  let scope ← newScope method.scope (Table.empty.insert thisName (.object receiver))
  return { method with scope }

def bindMethod (method : Closure) (receiver : ObjectId) : Eval Value := do
  newFunction (← bindReceiver method receiver)

/-! ## Scope and depth -/

/-- Runs a step in another scope and comes back to the present one, whatever happens. -/
def inScope {α : Type} (scope : ScopeId) (step : Eval α) : Eval α := fun m =>
  let outer := m.scope
  let (result, m) := step { m with scope }
  (result, { m with scope := outer })

def enter (scope : ScopeId) : Eval Unit := modify fun m => { m with scope }

/-- Runs a step as one more call in progress, and counts it out again, whatever happens. -/
def deeper {α : Type} (step : Eval α) : Eval α := fun m =>
  let (result, m) := step { m with depth := m.depth + 1 }
  (result, { m with depth := m.depth - 1 })

/-! ## Operators -/

def numbers (line : Nat) (f : Float → Float → Value) : Value → Value → Eval Value
  | .number a, .number b => return f a b
  | _, _ => fail line .operandsNotNumbers

def applyUnary (op : UnaryOp) (line : Nat) (operand : Value) : Eval Value :=
  match op, operand with
  | .not, v => return .bool !v.truthy
  | .negate, .number x => return .number (-x)
  | .negate, _ => fail line .operandNotNumber

def applyBinary (op : BinaryOp) (line : Nat) (left right : Value) : Eval Value :=
  match op with
  | .equal => return .bool (left.same right)
  | .notEqual => return .bool !left.same right
  | .greater => numbers line (fun a b => .bool (b < a)) left right
  | .greaterEqual => numbers line (fun a b => .bool (b ≤ a)) left right
  | .less => numbers line (fun a b => .bool (a < b)) left right
  | .lessEqual => numbers line (fun a b => .bool (a ≤ b)) left right
  | .subtract => numbers line (fun a b => .number (a - b)) left right
  | .multiply => numbers line (fun a b => .number (a * b)) left right
  | .divide => numbers line (fun a b => .number (a / b)) left right
  | .add =>
    match left, right with
    | .number a, .number b => return .number (a + b)
    | .string a, .string b => return .string (a ++ b)
    | _, _ => fail line .operandsNotAddable

/-- Does the left operand decide the result? -/
def decides (op : LogicalOp) (left : Value) : Bool :=
  match op with
  | .or => left.truthy
  | .and => !left.truthy

/-! ## Objects -/

def expectObject (line : Nat) (fault : RuntimeFault) : Value → Eval ObjectId
  | .object id => return id
  | _ => fail line fault

/-- A field, or else a method bound to the object. -/
def getProperty (id : ObjectId) (name : Name) : Eval Value := do
  let heap := (← get).heap
  match heap.objects[id]? with
  | none => fail name.line (.undefinedProperty name.text)
  | some object =>
    match object.fields.get? name.text with
    | some value => return value
    | none =>
      match heap.method? object.classId name.text with
      | some method => bindMethod method id
      | none => fail name.line (.undefinedProperty name.text)

def setField (id : ObjectId) (name : Bytes) (value : Value) : Eval Unit :=
  modify fun m => { m with heap := { m.heap with
    objects := m.heap.objects.modify id fun o => { o with fields := o.fields.insert name value } } }

/-- A method of the superclass that the current scope knows, bound to the receiver that it
knows. -/
def superMethod (line : Nat) (method : Name) : Eval Value := do
  match ← lookup ⟨superName, line⟩ with
  | .classRef parent =>
    let receiver ← expectObject line .propertyOfNonObject (← lookup ⟨thisName, line⟩)
    match (← get).heap.method? parent method.text with
    | some found => bindMethod found receiver
    | none => fail method.line (.undefinedProperty method.text)
  | _ => fail line .superclassNotClass

def print (value : Value) : Eval Unit :=
  modify fun m => { m with printed := m.printed.push (m.heap.render value) }

def readClock : Eval Value :=
  modifyGet fun m => (.number (m.clock m.readings), { m with readings := m.readings + 1 })

def checkCall (callee : Value) (count : Nat) (line : Nat) : Eval Unit := do
  let m ← get
  match m.heap.arity? callee with
  | none => fail line .notCallable
  | some arity =>
    if count ≠ arity then fail line (.wrongArgumentCount arity count)
    else if maxDepth ≤ m.depth then fail line .stackOverflow

/-- The value of a finished call. An initializer yields its receiver. -/
def callResult (closure : Closure) : Completion → Eval Value
  | completion => do
    if closure.isInitializer then
      return ((← get).heap.scopes.own? closure.scope thisName).getD .nil
    else match completion with
      | .returned value => return value
      | .normal => return .nil

/-! ## Classes -/

def superclass : Option Name → Eval (Option ClassId)
  | none => return none
  | some name => do
    match ← lookup name with
    | .classRef id => return some id
    | _ => fail name.line .superclassNotClass

/-- The methods of a class body declared in a scope; the last one of a name counts. -/
def methodTable (scope : ScopeId) (methods : List FunctionDecl) : Table Closure :=
  methods.foldl
    (fun table d => table.insert d.name.text ⟨d, scope, d.name.text == initializerName⟩) Table.empty

/-- Declares a class. Its methods see a superclass in a scope between theirs and the
current one. -/
def declareClass (name : Bytes) (parent : Option ClassId) (methods : List FunctionDecl) : Eval Unit := do
  let previous := (← get).scope
  match parent with
  | none => pure ()
  | some id =>
    enter (← newScope previous Table.empty)
    define superName (.classRef id)
  let value ← newClass ⟨name, parent, methodTable (← get).scope methods⟩
  enter previous
  define name value

end Eval

open Eval

mutual

def evalExpr : Nat → Expr → Eval Value
  | 0, _ => exhausted
  | n + 1, e =>
    match e with
    | .literal v => return .ofLiteral v
    | .var name => lookup name
    | .assign name e => do
      let value ← evalExpr n e
      assign name value
      return value
    | .unary op line e => do
      let value ← evalExpr n e
      applyUnary op line value
    | .binary op line l r => do
      let left ← evalExpr n l
      let right ← evalExpr n r
      applyBinary op line left right
    | .logical op l r => do
      let left ← evalExpr n l
      if decides op left then return left else evalExpr n r
    | .call f args line => do
      let callee ← evalExpr n f
      let values ← evalExprs n args
      checkCall callee values.length line
      deeper (callValue n callee values)
    | .get o name => do
      let id ← expectObject name.line .propertyOfNonObject (← evalExpr n o)
      getProperty id name
    | .set o name e => do
      let id ← expectObject name.line .fieldOfNonObject (← evalExpr n o)
      let value ← evalExpr n e
      setField id name.text value
      return value
    | .this line => lookup ⟨thisName, line⟩
    | .super line method => superMethod line method
    | .group e => evalExpr n e

def evalExprs : Nat → List Expr → Eval (List Value)
  | 0, _ => exhausted
  | _ + 1, [] => return []
  | n + 1, e :: es => do
    let value ← evalExpr n e
    let values ← evalExprs n es
    return value :: values

def callValue : Nat → Value → List Value → Eval Value
  | 0, _, _ => exhausted
  | n + 1, callee, args =>
    match callee with
    | .function id => do
      match (← get).heap.functions[id]? with
      | some closure => callClosure n closure args
      | none => return .nil
    | .clock => readClock
    | .classRef id => do
      let object ← newObject id
      match (← get).heap.method? id initializerName with
      | some method =>
        let closure ← bindReceiver method object
        let _ ← callClosure n closure args
        return .object object
      | none => return .object object
    | _ => return .nil

def callClosure : Nat → Closure → List Value → Eval Value
  | 0, _, _ => exhausted
  | n + 1, closure, args => do
    let bindings := Scopes.bindAll Table.empty closure.declaration.parameters args
    let scope ← newScope closure.scope bindings
    let completion ← inScope scope (execStmts n closure.declaration.body)
    callResult closure completion

def execStmt : Nat → Stmt → Eval Completion
  | 0, _ => exhausted
  | n + 1, s =>
    match s with
    | .expression e => do
      let _ ← evalExpr n e
      return .normal
    | .print e => do
      let value ← evalExpr n e
      print value
      return .normal
    | .var name initializer => do
      let value ← match initializer with
        | none => pure .nil
        | some e => evalExpr n e
      define name.text value
      return .normal
    | .block body => do
      let scope ← newScope (← get).scope Table.empty
      inScope scope (execStmts n body)
    | .ifElse condition thenBranch elseBranch => do
      if (← evalExpr n condition).truthy then
        execStmt n thenBranch
      else match elseBranch with
        | some e => execStmt n e
        | none => return .normal
    | .loop condition body => execLoop n condition body
    | .function declaration => do
      let value ← newFunction ⟨declaration, (← get).scope, false⟩
      define declaration.name.text value
      return .normal
    | .ret value => do
      match value with
      | none => return .returned .nil
      | some e => return .returned (← evalExpr n e)
    | .classDecl name parent methods => do
      let parentId ← superclass parent
      declareClass name.text parentId methods
      return .normal

/-- Up to the first statement that returns. -/
def execStmts : Nat → List Stmt → Eval Completion
  | 0, _ => exhausted
  | _ + 1, [] => return .normal
  | n + 1, s :: rest => do
    match ← execStmt n s with
    | .returned value => return .returned value
    | .normal => execStmts n rest

def execLoop : Nat → Expr → Stmt → Eval Completion
  | 0, _, _ => exhausted
  | n + 1, condition, body => do
    if (← evalExpr n condition).truthy then
      match ← execStmt n body with
      | .returned value => return .returned value
      | .normal => execLoop n condition body
    else
      return .normal

end

def execProgram (fuel : Nat) : List Stmt → Eval Unit
  | [] => return ()
  | s :: rest => do
    let _ ← execStmt fuel s
    execProgram fuel rest

end Lox
