/-
  Lox.Proofs.Renaming — other names for the same things. A `Renaming` gives every identifier
  a new one, different ones for different ones, and keeps `init` and `clock`, which mean
  something by themselves. It is extended to all texts by leaving the others alone
  (`Renaming.apply`), and stays injective there, so keywords, literals and the bindings for
  the receiver and its superclass keep apart from every new name.

  Tokens, trees and reports are renamed by putting the new name in the place of the old.
-/

import Lox.Heap
import Lox.Proofs.Lexical.Front
import Lox.Report

namespace Lox

open Lexical (Lexeme Shape)
open Segment (isAlpha isWordByte)

/-! ## Identifiers -/

def isIdentifier : Bytes → Bool
  | [] => false
  | c :: word => isAlpha c && word.all isWordByte && decide (TokenKind.ofWord (c :: word) = .identifier)

theorem isIdentifier_iff {w : Bytes} : isIdentifier w = true ↔ Lexeme .identifier w := by
  constructor
  · intro h
    cases w with
    | nil => cases h
    | cons c word =>
      simp only [isIdentifier, Bool.and_eq_true, List.all_eq_true, decide_eq_true_eq] at h
      have hlexeme := (Shape.word h.1.1 h.1.2).lexeme
      rwa [h.2] at hlexeme
  · intro h
    have hshape := h.shape
    cases h with
    | fixed hs => cases hs
    | @identifier c word hc hword _ =>
      obtain ⟨c', tail, heq, hshape⟩ := hshape
      obtain ⟨rfl, rfl⟩ := List.cons_eq_cons.mp heq
      simp only [isIdentifier, Bool.and_eq_true, List.all_eq_true, decide_eq_true_eq]
      exact ⟨⟨hc, hword⟩, (hshape.of_alpha hc).1.symm⟩

instance (w : Bytes) : Decidable (Lexeme .identifier w) := decidable_of_iff _ isIdentifier_iff

/-- A token of another kind is no identifier. -/
theorem Lexical.Lexeme.not_identifier {kind : TokenKind} {w : Bytes} (h : Lexeme kind w) (hkind : kind ≠ .identifier) :
    ¬ Lexeme .identifier w := by
  intro h'
  obtain ⟨c, tail, rfl, hshape⟩ := h.shape
  obtain ⟨c', tail', heq, hshape'⟩ := h'.shape
  obtain ⟨rfl, rfl⟩ := List.cons_eq_cons.mp heq
  exact hkind (hshape.unique hshape')

/-! ## Renamings -/

structure Renaming where
  /-- The new name of an identifier. -/
  image : Bytes → Bytes
  identifier : ∀ {w : Bytes}, Lexeme .identifier w → Lexeme .identifier (image w)
  injective : ∀ {v w : Bytes}, Lexeme .identifier v → Lexeme .identifier w → image v = image w → v = w
  initializer : image initializerName = initializerName
  clock : image Heap.clockName = Heap.clockName

namespace Renaming

def exchange (a b : Bytes) (ha : Lexeme .identifier a) (hb : Lexeme .identifier b)
    (hinit : initializerName ≠ a ∧ initializerName ≠ b) (hclock : Heap.clockName ≠ a ∧ Heap.clockName ≠ b) : Renaming where
  image w := if w = a then b else if w = b then a else w
  identifier hw := by
    split
    · exact hb
    · split
      · exact ha
      · exact hw
  injective _ _ := by grind
  initializer := by rw [if_neg hinit.1, if_neg hinit.2]
  clock := by rw [if_neg hclock.1, if_neg hclock.2]

variable (ρ : Renaming)

/-- The new text for a text: texts that are no identifier stay as they are. -/
def apply (w : Bytes) : Bytes := if Lexeme .identifier w then ρ.image w else w

theorem apply_identifier {w : Bytes} (h : Lexeme .identifier w) : ρ.apply w = ρ.image w := if_pos h

theorem apply_other {w : Bytes} (h : ¬ Lexeme .identifier w) : ρ.apply w = w := if_neg h

theorem apply_injective {v w : Bytes} (h : ρ.apply v = ρ.apply w) : v = w := by
  by_cases hv : Lexeme .identifier v <;> by_cases hw : Lexeme .identifier w
  · rw [ρ.apply_identifier hv, ρ.apply_identifier hw] at h
    exact ρ.injective hv hw h
  · rw [ρ.apply_identifier hv, ρ.apply_other hw] at h
    exact absurd (h ▸ ρ.identifier hv) hw
  · rw [ρ.apply_other hv, ρ.apply_identifier hw] at h
    exact absurd (h ▸ ρ.identifier hw) hv
  · rwa [ρ.apply_other hv, ρ.apply_other hw] at h

theorem apply_inj {v w : Bytes} : ρ.apply v = ρ.apply w ↔ v = w := ⟨ρ.apply_injective, congrArg ρ.apply⟩

@[simp] theorem apply_initializer : ρ.apply initializerName = initializerName :=
  (ρ.apply_identifier (by decide)).trans ρ.initializer

@[simp] theorem apply_clock : ρ.apply Heap.clockName = Heap.clockName := (ρ.apply_identifier (by decide)).trans ρ.clock

@[simp] theorem apply_this : ρ.apply thisName = thisName := ρ.apply_other (by decide)

@[simp] theorem apply_super : ρ.apply superName = superName := ρ.apply_other (by decide)

theorem apply_eq_initializer {w : Bytes} : ρ.apply w = initializerName ↔ w = initializerName :=
  ⟨fun h => ρ.apply_injective (h.trans ρ.apply_initializer.symm), fun h => by rw [h, apply_initializer]⟩

end Renaming

/-! ## Tokens, trees and reports -/

variable (ρ : Renaming)

def Token.rename (t : Token) : Token := { t with lexeme := ρ.apply t.lexeme }

def Name.rename (n : Name) : Name := { n with text := ρ.apply n.text }

mutual

def Expr.rename : Expr → Expr
  | .literal v => .literal v
  | .var n => .var (n.rename ρ)
  | .assign n v => .assign (n.rename ρ) v.rename
  | .unary op line e => .unary op line e.rename
  | .binary op line l r => .binary op line l.rename r.rename
  | .logical op l r => .logical op l.rename r.rename
  | .call c args line => .call c.rename (Expr.renameAll args) line
  | .get o n => .get o.rename (n.rename ρ)
  | .set o n v => .set o.rename (n.rename ρ) v.rename
  | .this line => .this line
  | .super line m => .super line (m.rename ρ)
  | .group e => .group e.rename

def Expr.renameAll : List Expr → List Expr
  | [] => []
  | e :: es => e.rename :: Expr.renameAll es

end

mutual

def Stmt.rename : Stmt → Stmt
  | .expression e => .expression (e.rename ρ)
  | .print e => .print (e.rename ρ)
  | .var n init => .var (n.rename ρ) (init.map (Expr.rename ρ))
  | .block body => .block (Stmt.renameAll body)
  | .ifElse c t none => .ifElse (c.rename ρ) t.rename none
  | .ifElse c t (some e) => .ifElse (c.rename ρ) t.rename (some e.rename)
  | .loop c b => .loop (c.rename ρ) b.rename
  | .function d => .function d.rename
  | .ret v => .ret (v.map (Expr.rename ρ))
  | .classDecl n parent methods => .classDecl (n.rename ρ) (parent.map (Name.rename ρ)) (FunctionDecl.renameAll methods)

def FunctionDecl.rename : FunctionDecl → FunctionDecl
  | .mk n params body => .mk (n.rename ρ) (params.map (Name.rename ρ)) (Stmt.renameAll body)

def Stmt.renameAll : List Stmt → List Stmt
  | [] => []
  | s :: ss => s.rename :: Stmt.renameAll ss

def FunctionDecl.renameAll : List FunctionDecl → List FunctionDecl
  | [] => []
  | d :: ds => d.rename :: FunctionDecl.renameAll ds

end

def Place.rename : Place → Place
  | .atLexeme lexeme => .atLexeme (ρ.apply lexeme)
  | place => place

def RuntimeFault.rename : RuntimeFault → RuntimeFault
  | .undefinedVariable name => .undefinedVariable (ρ.apply name)
  | .undefinedProperty name => .undefinedProperty (ρ.apply name)
  | fault => fault

def Fault.rename : Fault → Fault
  | .runtime fault => .runtime (fault.rename ρ)
  | fault => fault

def Report.rename (r : Report) : Report := { r with place := r.place.rename ρ, fault := r.fault.rename ρ }

def RuntimeError.rename (e : RuntimeError) : RuntimeError := { e with fault := e.fault.rename ρ }

@[simp] theorem Token.rename_kind (t : Token) : (t.rename ρ).kind = t.kind := rfl
@[simp] theorem Token.rename_lexeme (t : Token) : (t.rename ρ).lexeme = ρ.apply t.lexeme := rfl
@[simp] theorem Token.rename_line (t : Token) : (t.rename ρ).line = t.line := rfl
@[simp] theorem Name.rename_text (n : Name) : (n.rename ρ).text = ρ.apply n.text := rfl
@[simp] theorem Name.rename_line (n : Name) : (n.rename ρ).line = n.line := rfl

@[simp] theorem Expr.renameAll_eq (es : List Expr) : Expr.renameAll ρ es = es.map (Expr.rename ρ) := by
  induction es with
  | nil => rfl
  | cons e es ih => rw [Expr.renameAll, ih, List.map_cons]

@[simp] theorem Stmt.renameAll_eq (ss : List Stmt) : Stmt.renameAll ρ ss = ss.map (Stmt.rename ρ) := by
  induction ss with
  | nil => rfl
  | cons s ss ih => rw [Stmt.renameAll, ih, List.map_cons]

@[simp] theorem FunctionDecl.renameAll_eq (ds : List FunctionDecl) :
    FunctionDecl.renameAll ρ ds = ds.map (FunctionDecl.rename ρ) := by
  induction ds with
  | nil => rfl
  | cons d ds ih => rw [FunctionDecl.renameAll, ih, List.map_cons]

theorem Stmt.rename_ifElse (c : Expr) (t : Stmt) (e : Option Stmt) :
    (Stmt.ifElse c t e).rename ρ = .ifElse (c.rename ρ) (t.rename ρ) (e.map (Stmt.rename ρ)) := by
  cases e <;> simp [Stmt.rename]

theorem Stmt.rename_counting (init : Option Stmt) (cond inc : Option Expr) (body : Stmt) :
    (Stmt.counting init cond inc body).rename ρ =
      .counting (init.map (Stmt.rename ρ)) (cond.map (Expr.rename ρ)) (inc.map (Expr.rename ρ)) (body.rename ρ) := by
  cases init <;> cases cond <;> cases inc <;> simp [Stmt.counting, Stmt.rename, Expr.rename]

@[simp] theorem FunctionDecl.rename_name (d : FunctionDecl) : (d.rename ρ).name = d.name.rename ρ := by
  cases d; rfl

@[simp] theorem FunctionDecl.rename_parameters (d : FunctionDecl) :
    (d.rename ρ).parameters = d.parameters.map (Name.rename ρ) := by
  cases d; rfl

@[simp] theorem FunctionDecl.rename_body (d : FunctionDecl) : (d.rename ρ).body = d.body.map (Stmt.rename ρ) := by
  cases d
  simp only [FunctionDecl.rename, FunctionDecl.body, Stmt.renameAll_eq]

end Lox
