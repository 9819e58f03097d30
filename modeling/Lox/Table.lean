/-
  Lox.Table — names and what they stand for. A table holds each name once; writing a name
  again replaces what it stood for.
-/

import Lox.Text.Basic

namespace Lox

structure Table (α : Type) where
  /-- Oldest name first. -/
  entries : List (Bytes × α) := []

namespace Table

variable {α : Type}

def empty : Table α := {}

def get? (t : Table α) (name : Bytes) : Option α := t.entries.lookup name

def contains (t : Table α) (name : Bytes) : Bool := (t.get? name).isSome

/-- Replaces the entry for a name, or adds one at the end. -/
def insertInto (name : Bytes) (value : α) : List (Bytes × α) → List (Bytes × α)
  | [] => [(name, value)]
  | (n, v) :: rest => if name == n then (n, value) :: rest else (n, v) :: insertInto name value rest

def insert (t : Table α) (name : Bytes) (value : α) : Table α := ⟨insertInto name value t.entries⟩

def names (t : Table α) : List Bytes := t.entries.map (·.1)

def sorted (t : Table α) : List (Bytes × α) := t.entries.mergeSort fun a b => Text.le a.1 b.1

@[simp] theorem get?_empty (name : Bytes) : (empty : Table α).get? name = none := rfl

theorem get?_insert (t : Table α) (name other : Bytes) (value : α) :
    (t.insert name value).get? other = if other = name then some value else t.get? other := by
  obtain ⟨entries⟩ := t
  simp only [insert, get?]
  induction entries with
  | nil => by_cases h : other = name <;> simp [insertInto, h]
  | cons e rest ih =>
    obtain ⟨n, v⟩ := e
    have hlookup : ∀ (w : α) l, List.lookup other ((n, w) :: l) = if other = n then some w else List.lookup other l := by
      intro w l
      by_cases h : other = n
      · simp [h]
      · simp [List.lookup_cons, beq_eq_false_iff_ne.mpr h, h]
    simp only [insertInto]
    by_cases hn : name = n
    · subst hn
      simp only [beq_self_eq_true, if_true, hlookup]
      split <;> rfl
    · simp only [beq_iff_eq, hn, if_false, hlookup, ih]
      by_cases ho : other = n
      · subst ho
        simp [Ne.symm hn]
      · simp [ho]

@[simp] theorem get?_insert_self (t : Table α) (name : Bytes) (value : α) :
    (t.insert name value).get? name = some value := by simp [get?_insert]

end Table

end Lox
