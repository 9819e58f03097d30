/-
  Lox.Heap — what a running program has made: scopes, functions, classes and objects, each
  known by the number it got when it was made. A value refers to the last three by number,
  so two of them are the same value exactly if they were made by the same step.
-/

import Lox.Table
import Lox.Tree
import Lox.Tree.Render

namespace Lox

abbrev ScopeId := Nat
abbrev FunctionId := Nat
abbrev ClassId := Nat
abbrev ObjectId := Nat

inductive Value where
  | nil
  | bool (b : Bool)
  | number (x : Float)
  | string (s : Bytes)
  | function (id : FunctionId)
  | clock
  | classRef (id : ClassId)
  | object (id : ObjectId)

namespace Value

def ofLiteral : Literal → Value
  | .nil => .nil
  | .bool b => .bool b
  | .number x => .number x
  | .string s => .string s

def truthy : Value → Bool
  | .nil => false
  | .bool b => b
  | _ => true

/-- Equality as programs see it: values of different kinds differ, a number that is none
differs from itself, and the two zeros are equal. -/
def same : Value → Value → Bool
  | .nil, .nil => true
  | .bool a, .bool b => a == b
  | .number a, .number b => a == b
  | .string a, .string b => a == b
  | .function a, .function b => a == b
  | .clock, .clock => true
  | .classRef a, .classRef b => a == b
  | .object a, .object b => a == b
  | _, _ => false

end Value

structure Closure where
  declaration : FunctionDecl
  scope : ScopeId
  isInitializer : Bool

def Closure.arity (c : Closure) : Nat := c.declaration.parameters.length

structure ClassInfo where
  name : Bytes
  superclass : Option ClassId
  methods : Table Closure

structure Object where
  classId : ClassId
  fields : Table Value

structure Scope where
  enclosing : Option ScopeId
  bindings : Table Value

structure Scopes where
  all : Array Scope := #[]

namespace Scopes

/-- The scope that binds a name: the first one on the way outwards, at most `bound` scopes
away. -/
def holderWithin? (s : Scopes) (name : Bytes) : Nat → ScopeId → Option ScopeId
  | 0, _ => none
  | bound + 1, id =>
    match s.all[id]? with
    | none => none
    | some scope =>
      if scope.bindings.contains name then some id
      else match scope.enclosing with
        | none => none
        | some outer => s.holderWithin? name bound outer

/-- The nearest scope that binds a name. An enclosing scope is older than what it encloses,
so the number of a scope bounds the way outwards. -/
def holder? (s : Scopes) (id : ScopeId) (name : Bytes) : Option ScopeId := s.holderWithin? name (id + 1) id

def own? (s : Scopes) (id : ScopeId) (name : Bytes) : Option Value :=
  s.all[id]?.bind fun scope => scope.bindings.get? name

def get? (s : Scopes) (id : ScopeId) (name : Bytes) : Option Value :=
  (s.holder? id name).bind fun holder => s.own? holder name

def define (s : Scopes) (id : ScopeId) (name : Bytes) (value : Value) : Scopes :=
  ⟨s.all.modify id fun scope => { scope with bindings := scope.bindings.insert name value }⟩

/-- Changes the binding that a name has in a scope; none if it has none. -/
@[inline] def assign? (s : Scopes) (id : ScopeId) (name : Bytes) (value : Value) : Option Scopes :=
  (s.holder? id name).map fun holder => s.define holder name value

def next (s : Scopes) : ScopeId := s.all.size

def push (s : Scopes) (scope : Scope) : Scopes := ⟨s.all.push scope⟩

def bindAll (bindings : Table Value) : List Name → List Value → Table Value
  | n :: ns, v :: vs => bindAll (bindings.insert n.text v) ns vs
  | _, _ => bindings

end Scopes

structure Heap where
  scopes : Scopes := {}
  functions : Array Closure := #[]
  classes : Array ClassInfo := #[]
  objects : Array Object := #[]

namespace Heap

def globals : ScopeId := 0

def clockName : Bytes := utf8 "clock"

/-- One scope, which binds the clock. -/
def initial : Heap := { scopes := { all := #[⟨none, Table.empty.insert clockName .clock⟩] } }

/-- The method that objects of a class have under a name: the nearest one, going from
superclass to superclass at most `bound` times. -/
def methodWithin? (h : Heap) (name : Bytes) : Nat → ClassId → Option Closure
  | 0, _ => none
  | bound + 1, id =>
    match h.classes[id]? with
    | none => none
    | some info =>
      match info.methods.get? name with
      | some method => some method
      | none =>
        match info.superclass with
        | none => none
        | some parent => h.methodWithin? name bound parent

/-- The method that objects of a class have under a name. A superclass is older than its
subclass, so the number of a class bounds the way up. -/
def method? (h : Heap) (id : ClassId) (name : Bytes) : Option Closure := h.methodWithin? name (id + 1) id

/-- How many arguments a value takes when called; none if it cannot be called. -/
def arity? (h : Heap) : Value → Option Nat
  | .function id => h.functions[id]?.map Closure.arity
  | .clock => some 0
  | .classRef id => some (((h.method? id initializerName).map Closure.arity).getD 0)
  | _ => none

def className (h : Heap) (id : ClassId) : Bytes := (h.classes[id]?.map ClassInfo.name).getD []

def render (h : Heap) : Value → Bytes
  | .nil => utf8 "nil"
  | .bool b => boolText b
  | .number x => Number.print x
  | .string s => s
  | .function id => utf8 "<fn " ++ (h.functions[id]?.map (·.declaration.name.text)).getD [] ++ utf8 ">"
  | .clock => utf8 "<native fn>"
  | .classRef id => h.className id
  | .object id => (h.objects[id]?.map fun o => h.className o.classId).getD [] ++ utf8 " instance"

end Heap

end Lox
