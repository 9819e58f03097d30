/-
  Lox.Proofs.Render.ReadBack — a tree is written as a form (`Expr.form`, `Stmt.form`), and it can be
  read back from the form up to its lines (`Expr.expr_form`, `Stmt.stmt_form`). The head of
  a list and the number of its parts decide what it is: `=` and `-` have different numbers
  of parts in their two uses, and a superclass is a shorter list than a method.
-/

import Lox.Proofs.Render.Forms
import Lox.Proofs.Renumber

namespace Lox

/-! ## Trees as forms -/

mutual

def Expr.form : Expr → Form
  | .literal v => .literal v
  | .var n => .word n.text
  | .assign n v => .node "=" [.word n.text, v.form]
  | .unary op _ e => .node op.symbol [e.form]
  | .binary op _ l r => .node op.symbol [l.form, r.form]
  | .logical op l r => .node op.symbol [l.form, r.form]
  | .call f args _ => .node "call" (f.form :: Expr.forms args)
  | .get o n => .node "." [o.form, .word n.text]
  | .set o n v => .node "=" [o.form, .word n.text, v.form]
  | .this _ => .word thisName
  | .super _ m => .node "super" [.word m.text]
  | .group e => .node "group" [e.form]

def Expr.forms : List Expr → List Form
  | [] => []
  | e :: es => e.form :: Expr.forms es

end

mutual

def Stmt.form : Stmt → Form
  | .expression e => .node ";" [e.form]
  | .print e => .node "print" [e.form]
  | .var n none => .node "var" [.word n.text]
  | .var n (some e) => .node "var" [.word n.text, .word (utf8 "="), e.form]
  | .block body => .node "block" (Stmt.forms body)
  | .ifElse c t none => .node "if" [c.form, t.form]
  | .ifElse c t (some e) => .node "if-else" [c.form, t.form, e.form]
  | .loop c b => .node "while" [c.form, b.form]
  | .function d => d.form
  | .ret none => .node "return" []
  | .ret (some e) => .node "return" [e.form]
  | .classDecl n none methods => .node "class" (.word n.text :: FunctionDecl.forms methods)
  | .classDecl n (some s) methods =>
    .node "class" (.word n.text :: .node "<" [.word s.text] :: FunctionDecl.forms methods)

def FunctionDecl.form : FunctionDecl → Form
  | .mk n params body => .node "fun" (.word n.text :: .list (params.map fun p => .word p.text) :: Stmt.forms body)

def Stmt.forms : List Stmt → List Form
  | [] => []
  | s :: ss => s.form :: Stmt.forms ss

def FunctionDecl.forms : List FunctionDecl → List Form
  | [] => []
  | d :: ds => d.form :: FunctionDecl.forms ds

end

mutual

/-- The form of an expression is written as the expression is. -/
theorem Expr.text_form : (e : Expr) → e.form.text = e.render
  | .literal _ | .var _ | .this _ => rfl
  | .super _ m => Form.text_node _ _
  | .assign n v => by rw [Expr.form, Expr.render, Form.text_node, ← v.text_form]; rfl
  | .unary op _ e => by rw [Expr.form, Expr.render, Form.text_node, ← e.text_form]; rfl
  | .binary op _ l r => by rw [Expr.form, Expr.render, Form.text_node, ← l.text_form, ← r.text_form]; rfl
  | .logical op l r => by rw [Expr.form, Expr.render, Form.text_node, ← l.text_form, ← r.text_form]; rfl
  | .call f args _ => by rw [Expr.form, Expr.render, Form.text_node, ← f.text_form, ← Expr.texts_forms args]; rfl
  | .get o n => by rw [Expr.form, Expr.render, Form.text_node, ← o.text_form]; rfl
  | .set o n v => by rw [Expr.form, Expr.render, Form.text_node, ← o.text_form, ← v.text_form]; rfl
  | .group e => by rw [Expr.form, Expr.render, Form.text_node, ← e.text_form]; rfl

theorem Expr.texts_forms : (es : List Expr) → Form.texts (Expr.forms es) = renderExprs es
  | [] => rfl
  | e :: es => by rw [Expr.forms, renderExprs, Form.texts, e.text_form, Expr.texts_forms es]

end

theorem texts_words (names : List Name) :
    Form.texts (names.map fun n => Form.word n.text) = names.map Name.text := by
  induction names with
  | nil => rfl
  | cons n names ih => rw [List.map_cons, Form.texts, ih]; rfl

mutual

theorem Stmt.text_form : (s : Stmt) → s.form.text = s.render
  | .expression e => by rw [Stmt.form, Stmt.render, Form.text_node, ← e.text_form]; rfl
  | .print e => by rw [Stmt.form, Stmt.render, Form.text_node, ← e.text_form]; rfl
  | .var _ none => Form.text_node _ _
  | .var _ (some e) => by rw [Stmt.form, Stmt.render, Form.text_node, ← e.text_form]; rfl
  | .block body => by rw [Stmt.form, Stmt.render, Form.text_node, Stmt.texts_forms body]
  | .ifElse c t none => by rw [Stmt.form, Stmt.render, Form.text_node, ← c.text_form, ← t.text_form]; rfl
  | .ifElse c t (some e) => by
    rw [Stmt.form, Stmt.render, Form.text_node, ← c.text_form, ← t.text_form, ← e.text_form]; rfl
  | .loop c b => by rw [Stmt.form, Stmt.render, Form.text_node, ← c.text_form, ← b.text_form]; rfl
  | .function d => d.text_form
  | .ret none => Form.text_node _ _
  | .ret (some e) => by rw [Stmt.form, Stmt.render, Form.text_node, ← e.text_form]; rfl
  | .classDecl _ none methods => by
    rw [Stmt.form, Stmt.render, Form.text_node, ← FunctionDecl.texts_forms methods]; rfl
  | .classDecl _ (some s) methods => by
    rw [Stmt.form, Stmt.render, Form.text_node, ← FunctionDecl.texts_forms methods, Form.texts, Form.texts,
      Form.text_node]; rfl

theorem FunctionDecl.text_form : (d : FunctionDecl) → d.form.text = d.render
  | .mk n params body => by
    rw [FunctionDecl.form, FunctionDecl.render, Form.text_node, Form.texts, Form.texts, Form.text, Form.text,
      texts_words, Stmt.texts_forms body]

theorem Stmt.texts_forms : (ss : List Stmt) → Form.texts (Stmt.forms ss) = renderStmts ss
  | [] => rfl
  | s :: ss => by rw [Stmt.forms, renderStmts, Form.texts, s.text_form, Stmt.texts_forms ss]

theorem FunctionDecl.texts_forms : (ds : List FunctionDecl) → Form.texts (FunctionDecl.forms ds) = renderMethods ds
  | [] => rfl
  | d :: ds => by rw [FunctionDecl.forms, renderMethods, Form.texts, d.text_form, FunctionDecl.texts_forms ds]

end

/-! ## Trees that can be read -/

/-- A name that cannot be taken for anything else. -/
def Name.Distinct (n : Name) : Prop := Form.Word n.text ∧ n.text ≠ thisName

theorem readable_words {names : List Name} (h : ∀ n ∈ names, n.Distinct) :
    Form.AllReadable (names.map fun n => Form.word n.text) := by
  induction names with
  | nil => trivial
  | cons n names ih =>
    exact ⟨(h n List.mem_cons_self).1, ih fun n' hn' => h n' (List.mem_cons_of_mem n hn')⟩

theorem UnaryOp.word_symbol (op : UnaryOp) : Form.Word (utf8 op.symbol) := by cases op <;> decide

theorem BinaryOp.word_symbol (op : BinaryOp) : Form.Word (utf8 op.symbol) := by cases op <;> decide

theorem LogicalOp.word_symbol (op : LogicalOp) : Form.Word (utf8 op.symbol) := by cases op <;> decide

theorem Form.readable_node {head : String} {parts : List Form} (hhead : Word (utf8 head)) (hparts : AllReadable parts) :
    (Form.node head parts).Readable :=
  ⟨hhead, hparts⟩

theorem this_word : Form.Word thisName := by decide

theorem assign_word : Form.Word (utf8 "=") := by decide

mutual

/-- Names and numbers that can be told apart make a form that can be read. -/
theorem Expr.readable_form : (e : Expr) → e.Leaves Name.Distinct Number.Written → e.form.Readable
  | .literal _, h => h
  | .var _, h => h.1
  | .assign _ v, h => Form.readable_node (by decide) ⟨h.1.1, v.readable_form h.2, trivial⟩
  | .unary op _ e, h => Form.readable_node op.word_symbol ⟨e.readable_form h, trivial⟩
  | .binary op _ l r, h => Form.readable_node op.word_symbol ⟨l.readable_form h.1, r.readable_form h.2, trivial⟩
  | .logical op l r, h => Form.readable_node op.word_symbol ⟨l.readable_form h.1, r.readable_form h.2, trivial⟩
  | .call f args _, h => Form.readable_node (by decide) ⟨f.readable_form h.1, Expr.readable_forms args h.2⟩
  | .get o _, h => Form.readable_node (by decide) ⟨o.readable_form h.1, h.2.1, trivial⟩
  | .set o _ v, h => Form.readable_node (by decide) ⟨o.readable_form h.1, h.2.1.1, v.readable_form h.2.2, trivial⟩
  | .this _, _ => this_word
  | .super _ _, h => Form.readable_node (by decide) ⟨h.1, trivial⟩
  | .group e, h => Form.readable_node (by decide) ⟨e.readable_form h, trivial⟩

theorem Expr.readable_forms : (es : List Expr) → Expr.AllLeaves Name.Distinct Number.Written es →
    Form.AllReadable (Expr.forms es)
  | [], _ => trivial
  | e :: es, h => ⟨e.readable_form h.1, Expr.readable_forms es h.2⟩

end

mutual

theorem Stmt.readable_form : (s : Stmt) → s.Leaves Name.Distinct Number.Written → s.form.Readable
  | .expression e, h => Form.readable_node (by decide) ⟨e.readable_form h, trivial⟩
  | .print e, h => Form.readable_node (by decide) ⟨e.readable_form h, trivial⟩
  | .var _ none, h => Form.readable_node (by decide) ⟨h.1.1, trivial⟩
  | .var _ (some e), h => Form.readable_node (by decide) ⟨h.1.1, assign_word, e.readable_form (h.2 e rfl), trivial⟩
  | .block body, h => Form.readable_node (by decide) (Stmt.readable_forms body h)
  | .ifElse c t none, h => Form.readable_node (by decide) ⟨c.readable_form h.1, t.readable_form h.2, trivial⟩
  | .ifElse c t (some e), h =>
    Form.readable_node (by decide) ⟨c.readable_form h.1, t.readable_form h.2.1, e.readable_form h.2.2, trivial⟩
  | .loop c b, h => Form.readable_node (by decide) ⟨c.readable_form h.1, b.readable_form h.2, trivial⟩
  | .function d, h => d.readable_form h
  | .ret none, _ => Form.readable_node (by decide) trivial
  | .ret (some e), h => Form.readable_node (by decide) ⟨e.readable_form (h e rfl), trivial⟩
  | .classDecl _ none methods, h => Form.readable_node (by decide) ⟨h.1.1, FunctionDecl.readable_forms methods h.2.2⟩
  | .classDecl _ (some s) methods, h =>
    Form.readable_node (by decide) ⟨h.1.1, Form.readable_node (by decide) ⟨(h.2.1 s rfl).1, trivial⟩, FunctionDecl.readable_forms methods h.2.2⟩

theorem FunctionDecl.readable_form : (d : FunctionDecl) → d.Leaves Name.Distinct Number.Written → d.form.Readable
  | .mk _ _ body, h => Form.readable_node (by decide) ⟨h.1.1, readable_words h.2.1, Stmt.readable_forms body h.2.2⟩

theorem Stmt.readable_forms : (ss : List Stmt) → Stmt.AllLeaves Name.Distinct Number.Written ss →
    Form.AllReadable (Stmt.forms ss)
  | [], _ => trivial
  | s :: ss, h => ⟨s.readable_form h.1, Stmt.readable_forms ss h.2⟩

theorem FunctionDecl.readable_forms : (ds : List FunctionDecl) → FunctionDecl.AllLeaves Name.Distinct Number.Written ds →
    Form.AllReadable (FunctionDecl.forms ds)
  | [], _ => trivial
  | d :: ds, h => ⟨d.readable_form h.1, FunctionDecl.readable_forms ds h.2⟩

end

/-! ## Forms as trees -/

def BinaryOp.ofSymbol (symbol : Bytes) : BinaryOp :=
  let all : List BinaryOp :=
    [.add, .subtract, .multiply, .divide, .equal, .notEqual, .greater, .greaterEqual, .less, .lessEqual]
  (all.find? fun op => utf8 op.symbol = symbol).getD .add

/-- The expression with this head and these parts, each of them a name or an expression. -/
def Expr.ofNode (head : Bytes) (names : List Name) (args : List Expr) : Expr :=
  if head = utf8 "call" then .call (args.headD (.literal .nil)) args.tail 0
  else match names, args with
    | [n], [e] =>
      if head = utf8 "super" then .super 0 n
      else if head = utf8 "group" then .group e
      else .unary (if head = utf8 "!" then .not else .negate) 0 e
    | [n, m], [l, r] =>
      if head = utf8 "=" then .assign n r
      else if head = utf8 "." then .get l m
      else if head = utf8 "and" then .logical .and l r
      else if head = utf8 "or" then .logical .or l r
      else .binary (.ofSymbol head) 0 l r
    | [_, n, _], [o, _, v] => .set o n v
    | _, _ => .literal .nil

namespace Form

def name : Form → Name
  | .word w => ⟨w, 0⟩
  | _ => ⟨[], 0⟩

def names : Form → List Name
  | .list parts => parts.map name
  | _ => []

mutual

def expr : Form → Expr
  | .literal v => .literal v
  | .word w => if w = thisName then .this 0 else .var ⟨w, 0⟩
  | .list (.word head :: parts) => Expr.ofNode head (parts.map name) (exprs parts)
  | .list _ => .literal .nil

def exprs : List Form → List Expr
  | [] => []
  | p :: ps => p.expr :: exprs ps

end

def parent? : List Form → Option Name
  | _ :: .list [_, p] :: _ => some p.name
  | _ => none

end Form

/-- The function with these parts, if these are the statements they stand for. -/
def FunctionDecl.ofParts (parts : List Form) (body : List Stmt) : FunctionDecl :=
  .mk (parts.headD (.list [])).name (parts.tail.headD (.list [])).names (body.drop 2)

/-- The statement with this head and these parts, if these are what the parts stand for as
statements and as methods. -/
def Stmt.ofNode (head : Bytes) (parts : List Form) (stmts : List Stmt) (methods : List FunctionDecl) : Stmt :=
  let arg := (Form.exprs parts).headD (.literal .nil)
  let name := (parts.headD (.list [])).name
  let stmt := fun i => stmts[i]?.getD (.block [])
  if head = utf8 ";" then .expression arg
  else if head = utf8 "print" then .print arg
  else if head = utf8 "var" then .var name (Form.exprs parts)[2]?
  else if head = utf8 "block" then .block stmts
  else if head = utf8 "if" then .ifElse arg (stmt 1) none
  else if head = utf8 "if-else" then .ifElse arg (stmt 1) (some (stmt 2))
  else if head = utf8 "while" then .loop arg (stmt 1)
  else if head = utf8 "fun" then .function (.ofParts parts stmts)
  else if head = utf8 "return" then .ret (Form.exprs parts).head?
  else .classDecl name (Form.parent? parts) (methods.drop (if (Form.parent? parts).isSome then 2 else 1))

namespace Form

mutual

def stmt : Form → Stmt
  | .list (.word head :: parts) => Stmt.ofNode head parts (stmts parts) (decls parts)
  | _ => .block []

def decl : Form → FunctionDecl
  | .list (_ :: parts) => .ofParts parts (stmts parts)
  | _ => .mk ⟨[], 0⟩ [] []

def stmts : List Form → List Stmt
  | [] => []
  | p :: ps => p.stmt :: stmts ps

def decls : List Form → List FunctionDecl
  | [] => []
  | p :: ps => p.decl :: decls ps

end

end Form

/-! ## Reading trees back -/

theorem UnaryOp.ofNode_symbol (op : UnaryOp) (n : Name) (e : Expr) :
    Expr.ofNode (utf8 op.symbol) [n] [e] = .unary op 0 e := by
  cases op <;> rfl

theorem BinaryOp.ofNode_symbol (op : BinaryOp) (n m : Name) (l r : Expr) :
    Expr.ofNode (utf8 op.symbol) [n, m] [l, r] = .binary op 0 l r := by
  cases op <;> rfl

theorem LogicalOp.ofNode_symbol (op : LogicalOp) (n m : Name) (l r : Expr) :
    Expr.ofNode (utf8 op.symbol) [n, m] [l, r] = .logical op l r := by
  cases op <;> rfl

mutual

/-- The form gives the expression back, but for its line numbers. -/
theorem Expr.expr_form : (e : Expr) → e.Leaves Name.Distinct Number.Written → e.form.expr = e.renumber erased
  | .literal _, _ => rfl
  | .var _, h => if_neg h.2
  | .assign _ v, h => by rw [Expr.renumber, ← v.expr_form h.2]; rfl
  | .unary op _ e, h => by rw [Expr.renumber, ← e.expr_form h]; exact op.ofNode_symbol _ _
  | .binary op _ l r, h => by
    rw [Expr.renumber, ← l.expr_form h.1, ← r.expr_form h.2]; exact op.ofNode_symbol _ _ _ _
  | .logical op l r, h => by
    rw [Expr.renumber, ← l.expr_form h.1, ← r.expr_form h.2]; exact op.ofNode_symbol _ _ _ _
  | .call f args _, h => by rw [Expr.renumber, ← f.expr_form h.1, ← Expr.exprs_forms args h.2]; rfl
  | .get o _, h => by rw [Expr.renumber, ← o.expr_form h.1]; rfl
  | .set o _ v, h => by rw [Expr.renumber, ← o.expr_form h.1, ← v.expr_form h.2.2]; rfl
  | .this _, _ => rfl
  | .super _ _, _ => rfl
  | .group e, h => by rw [Expr.renumber, ← e.expr_form h]; rfl

theorem Expr.exprs_forms : (es : List Expr) → Expr.AllLeaves Name.Distinct Number.Written es →
    Form.exprs (Expr.forms es) = Expr.renumberAll erased es
  | [], _ => rfl
  | e :: es, h => by rw [Expr.forms, Form.exprs, Expr.renumberAll, e.expr_form h.1, Expr.exprs_forms es h.2]

end

theorem names_words (names : List Name) :
    (Form.list (names.map fun n => .word n.text)).names = names.map (Name.renumber erased) := by
  rw [Form.names, List.map_map]
  rfl

/-- A method is never taken for a superclass. -/
theorem FunctionDecl.parent?_forms (n : Form) (ds : List FunctionDecl) :
    Form.parent? (n :: FunctionDecl.forms ds) = none := by
  cases ds with
  | nil => rfl
  | cons d ds => cases d; rfl

mutual

theorem Stmt.stmt_form : (s : Stmt) → s.Leaves Name.Distinct Number.Written → s.form.stmt = s.renumber erased
  | .expression e, h => by rw [Stmt.renumber, ← e.expr_form h]; rfl
  | .print e, h => by rw [Stmt.renumber, ← e.expr_form h]; rfl
  | .var _ none, _ => rfl
  | .var _ (some e), h => by rw [Stmt.renumber, Option.map_some, ← e.expr_form (h.2 e rfl)]; rfl
  | .block body, h => by rw [Stmt.renumber, ← Stmt.stmts_forms body h]; rfl
  | .ifElse c t none, h => by rw [Stmt.renumber, ← c.expr_form h.1, ← t.stmt_form h.2]; rfl
  | .ifElse c t (some e), h => by
    rw [Stmt.renumber, ← c.expr_form h.1, ← t.stmt_form h.2.1, ← e.stmt_form h.2.2]; rfl
  | .loop c b, h => by rw [Stmt.renumber, ← c.expr_form h.1, ← b.stmt_form h.2]; rfl
  | .function (.mk n params body), h => by
    rw [Stmt.renumber, FunctionDecl.renumber, ← names_words, ← Stmt.stmts_forms body h.2.2]; rfl
  | .ret none, _ => rfl
  | .ret (some e), h => by rw [Stmt.renumber, Option.map_some, ← e.expr_form (h e rfl)]; rfl
  | .classDecl n none methods, h => by
    have hparent := FunctionDecl.parent?_forms (.word n.text) methods
    rw [Stmt.renumber, ← FunctionDecl.decls_forms methods h.2.2]
    show Stmt.classDecl ⟨n.text, 0⟩ (Form.parent? (.word n.text :: FunctionDecl.forms methods)) _ = _
    simp only [hparent]
    rfl
  | .classDecl _ (some s) methods, h => by
    rw [Stmt.renumber, ← FunctionDecl.decls_forms methods h.2.2]; rfl

theorem FunctionDecl.decl_form : (d : FunctionDecl) → d.Leaves Name.Distinct Number.Written →
    d.form.decl = d.renumber erased
  | .mk n params body, h => by
    rw [FunctionDecl.renumber, ← names_words, ← Stmt.stmts_forms body h.2.2]; rfl

theorem Stmt.stmts_forms : (ss : List Stmt) → Stmt.AllLeaves Name.Distinct Number.Written ss →
    Form.stmts (Stmt.forms ss) = Stmt.renumberAll erased ss
  | [], _ => rfl
  | s :: ss, h => by rw [Stmt.forms, Form.stmts, Stmt.renumberAll, s.stmt_form h.1, Stmt.stmts_forms ss h.2]

theorem FunctionDecl.decls_forms : (ds : List FunctionDecl) → FunctionDecl.AllLeaves Name.Distinct Number.Written ds →
    Form.decls (FunctionDecl.forms ds) = FunctionDecl.renumberAll erased ds
  | [], _ => rfl
  | d :: ds, h => by
    rw [FunctionDecl.forms, Form.decls, FunctionDecl.renumberAll, d.decl_form h.1, FunctionDecl.decls_forms ds h.2]

end

end Lox
