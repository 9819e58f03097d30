/-
  Lox.Yaml.Node — what a document holds. A node can have a name, and an alias stands for
  the node that had its name last; that node can be one around the alias.
-/

import Lox.Yaml.Tag

namespace Lox.Yaml

inductive Node where
  | scalar (line : Nat) (tag value : Bytes)
  | sequence (line : Nat) (tag : Bytes) (items : List Node)
  | mapping (line : Nat) (tag : Bytes) (entries : List (Node × Node))
  /-- Each alias has a number of its own, and so has each named node. -/
  | reference (line : Nat) (name : Bytes) (number target : Nat)

namespace Node

def line : Node → Nat
  | .scalar line _ _ | .sequence line _ _ | .mapping line _ _ | .reference line _ _ _ => line

/-- The type of a node; an alias has none. -/
def tag : Node → Bytes
  | .scalar _ tag _ | .sequence _ tag _ | .mapping _ tag _ => tag
  | .reference _ _ _ _ => []

def text : Node → Bytes
  | .scalar _ _ value => value
  | .reference _ name _ _ => name
  | _ => []

/-- Keys of one kind with the same text count as the same. -/
def sameKey (a b : Node) : Bool :=
  a.text == b.text && match a, b with
    | .scalar _ _ _, .scalar _ _ _ => true
    | .sequence _ _ _, .sequence _ _ _ => true
    | .mapping _ _ _, .mapping _ _ _ => true
    | .reference _ _ _ _, .reference _ _ _ _ => true
    | _, _ => false

/-- A key that asks for the entries of another mapping. -/
def isMerge : Node → Bool
  | .scalar _ tag value => tag == Tag.merge && value == utf8 "<<"
  | _ => false

end Node

structure Document where
  root : Node
  named : List (Nat × Node) := []

def Document.find? (d : Document) (target : Nat) : Option Node := d.named.lookup target

end Lox.Yaml
