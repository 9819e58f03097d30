/-
  Lox.Proofs.Render.Forms — nested lists of words and literals, and how they are read. A form
  is written with one space between the parts of a list and parentheses around them; a word
  or a number ends where a space, a parenthesis or a line break comes, a string at its
  closing quote. So a text starts with at most one form (`Form.text_append_injective`): the
  parts of a list need no length, and parentheses inside of strings do no harm.
-/

import Lox.Proofs.Grammar.Leaves
import Lox.Proofs.Number.Printed
import Lox.Proofs.Text.Quoted
import Lox.Tree.Render

namespace Lox

inductive Form where
  | literal (v : Literal)
  | word (w : Bytes)
  | list (parts : List Form)

namespace Form

mutual

def text : Form → Bytes
  | .literal v => v.render
  | .word w => w
  | .list parts => utf8 "(" ++ Text.join (utf8 " ") (texts parts) ++ utf8 ")"

def texts : List Form → List Bytes
  | [] => []
  | p :: ps => p.text :: texts ps

end

def node (head : String) (parts : List Form) : Form := .list (.word (utf8 head) :: parts)

theorem join_cons (separator a : Bytes) (rest : List Bytes) :
    Text.join separator (a :: rest) = a ++ rest.flatMap (separator ++ ·) := by
  induction rest generalizing a with
  | nil => exact (List.append_nil a).symm
  | cons b rest ih => rw [Text.join, ih, List.flatMap_cons, List.append_assoc, List.append_assoc]; nofun

theorem text_node (head : String) (parts : List Form) : (node head parts).text = Lox.node head (texts parts) := by
  rw [node, text, texts, text, join_cons, Lox.node, List.append_assoc]
  simp only [List.append_assoc]

/-! ## Words -/

def delimiters : Bytes := [' '.toUInt8, '('.toUInt8, ')'.toUInt8, Text.quoteMark, Text.newline]

/-- A text that can be read up to the next delimiter. -/
def Solid (w : Bytes) : Prop := w ≠ [] ∧ w.all (fun b => b ∉ delimiters) = true

instance (w : Bytes) : Decidable (Solid w) := inferInstanceAs (Decidable (_ ∧ _))

def Ends (rest : Bytes) : Prop := ∀ b ∈ rest.head?, b ∈ delimiters

/-- A word that cannot be taken for a literal. -/
def Word (w : Bytes) : Prop :=
  Solid w ∧ w.head?.any Text.isDigit = false ∧ w ∉ [utf8 "nil", utf8 "true", utf8 "false", utf8 "+Inf"]

instance (w : Bytes) : Decidable (Word w) := inferInstanceAs (Decidable (_ ∧ _ ∧ _))

theorem solid_iff {w : Bytes} : Solid w ↔ w ≠ [] ∧ ∀ b ∈ w, b ∉ delimiters := by
  simp only [Solid, List.all_eq_true, decide_eq_true_eq]

theorem Solid.append_injective {w w' rest rest' : Bytes} (hw : Solid w) (hw' : Solid w') (hrest : Ends rest)
    (hrest' : Ends rest') (h : w ++ rest = w' ++ rest') : w = w' ∧ rest = rest' := by
  have hread : ∀ {w rest : Bytes}, Solid w → Ends rest → (w ++ rest).takeWhile (fun b => decide (b ∉ delimiters)) = w := by
    intro w rest hw hrest
    rw [List.takeWhile_append_of_pos (List.all_eq_true.mp hw.2)]
    cases rest with
    | nil => exact List.append_nil w
    | cons b rest =>
      have hb : b ∈ delimiters := hrest b rfl
      rw [List.takeWhile_cons_of_neg (by simpa using hb), List.append_nil]
  have heq : w = w' := by rw [← hread hw hrest, h, hread hw' hrest']
  exact ⟨heq, List.append_cancel_left (heq ▸ h)⟩

theorem Solid.starts {w : Bytes} (h : Solid w) : ∃ b more, w = b :: more ∧ b ∉ delimiters := by
  obtain ⟨b, more, rfl⟩ := List.exists_cons_of_ne_nil h.1
  exact ⟨b, more, rfl, (solid_iff.mp h).2 b List.mem_cons_self⟩

/-! ## Literals -/

theorem digit_not_delimiter {b : UInt8} (h : Text.isDigit b = true ∨ b = 46) : b ∉ delimiters := by
  intro hmem
  simp only [delimiters, List.mem_cons, List.not_mem_nil, or_false] at hmem
  rcases hmem with rfl | rfl | rfl | rfl | rfl <;> exact absurd h (by decide)

theorem solid_print {bits : Nat} (h : bits ≤ Number.infinity) : Solid (Number.print (Float.ofBits bits.toUInt64)) := by
  rcases Number.lexeme_print h with hlexeme | rfl
  · obtain ⟨d, more, htext, hdigit, hmore⟩ := Number.lexeme_starts hlexeme
    rw [htext, solid_iff]
    refine ⟨List.cons_ne_nil d more, fun b hb => ?_⟩
    rcases List.mem_cons.mp hb with rfl | hb
    · exact digit_not_delimiter (.inl hdigit)
    · exact digit_not_delimiter (hmore b hb)
  · rw [Number.print_infinity]
    decide

theorem print_ne {bits : Nat} (h : bits ≤ Number.infinity) {w : Bytes} (hdigit : w.head?.any Text.isDigit = false)
    (hinf : w ≠ utf8 "+Inf") : Number.print (Float.ofBits bits.toUInt64) ≠ w := by
  rintro rfl
  rcases Number.lexeme_print h with hlexeme | rfl
  · obtain ⟨d, more, htext, hd, -⟩ := Number.lexeme_starts hlexeme
    rw [htext] at hdigit
    exact absurd (hd.symm.trans hdigit) (by decide)
  · exact hinf Number.print_infinity

/-! ## Forms that end at a delimiter -/

inductive Atom : Form → Prop
  | nil : Atom (.literal .nil)
  | bool (b : Bool) : Atom (.literal (.bool b))
  | number {bits : Nat} : bits ≤ Number.infinity → Atom (.literal (.number (Float.ofBits bits.toUInt64)))
  | word {w : Bytes} : Word w → Atom (.word w)

theorem Atom.solid {x : Form} (h : Atom x) : Solid x.text := by
  cases h with
  | nil => decide
  | bool b => cases b <;> decide
  | number h => exact solid_print h
  | word h => exact h.1

theorem print_ne_bool {bits : Nat} (h : bits ≤ Number.infinity) (b : Bool) :
    Number.print (Float.ofBits bits.toUInt64) ≠ boolText b := by
  cases b <;> exact print_ne h (by decide) (by decide)

theorem Word.ne_bool {w : Bytes} (h : Word w) (b : Bool) : w ≠ boolText b := by
  rintro rfl
  cases b <;> exact absurd h (by decide)

theorem Word.ne_nil {w : Bytes} (h : Word w) : w ≠ utf8 "nil" := by
  rintro rfl
  exact absurd h (by decide)

theorem Word.ne_print {w : Bytes} (h : Word w) {bits : Nat} (hbits : bits ≤ Number.infinity) :
    Number.print (Float.ofBits bits.toUInt64) ≠ w :=
  print_ne hbits h.2.1 fun hinf => h.2.2 (by simp [hinf])

theorem nil_ne_bool (b : Bool) : utf8 "nil" ≠ boolText b := by cases b <;> decide

theorem boolText_injective {a b : Bool} (h : boolText a = boolText b) : a = b := by
  revert a b
  decide

theorem Atom.text_injective {x y : Form} (hx : Atom x) (hy : Atom y) (h : x.text = y.text) : x = y := by
  cases hx with
  | nil =>
    cases hy with
    | nil => rfl
    | bool b => exact absurd h (nil_ne_bool b)
    | number hn => exact absurd h.symm (print_ne hn (by decide) (by decide))
    | word hw => exact absurd h.symm hw.ne_nil
  | bool a =>
    cases hy with
    | nil => exact absurd h.symm (nil_ne_bool a)
    | bool b => rw [boolText_injective h]
    | number hn => exact absurd h.symm (print_ne_bool hn a)
    | word hw => exact absurd h.symm (hw.ne_bool a)
  | number hm =>
    cases hy with
    | nil => exact absurd h (print_ne hm (by decide) (by decide))
    | bool b => exact absurd h (print_ne_bool hm b)
    | number hn => rw [Number.print_injective hm hn h]
    | word hw => exact absurd h (hw.ne_print hm)
  | word hw =>
    cases hy with
    | nil => exact absurd h hw.ne_nil
    | bool b => exact absurd h (hw.ne_bool b)
    | number hn => exact absurd h.symm (hw.ne_print hn)
    | word _ => exact congrArg Form.word h

/-! ## Reading a form -/

mutual

/-- The form has only words and literals that can be told apart. -/
def Readable : Form → Prop
  | .literal v => v.Leaves Number.Written
  | .word w => Word w
  | .list parts => AllReadable parts

def AllReadable : List Form → Prop
  | [] => True
  | p :: ps => p.Readable ∧ AllReadable ps

end

/-- The three ways in which a form starts. -/
theorem Readable.cases {x : Form} (h : x.Readable) :
    Atom x ∨ (∃ s, x = .literal (.string s)) ∨ ∃ parts, x = .list parts ∧ AllReadable parts := by
  match x, h with
  | .literal .nil, _ => exact .inl .nil
  | .literal (.bool b), _ => exact .inl (.bool b)
  | .literal (.number _), ⟨bits, hbits, rfl⟩ => exact .inl (.number hbits)
  | .literal (.string s), _ => exact .inr (.inl ⟨s, rfl⟩)
  | .word _, h => exact .inl (.word h)
  | .list parts, h => exact .inr (.inr ⟨parts, rfl, h⟩)

/-- The parts of a list after the first, up to its end. -/
def trail (parts : List Form) : Bytes := (texts parts).flatMap (utf8 " " ++ ·) ++ utf8 ")"

theorem trail_cons (p : Form) (ps : List Form) : trail (p :: ps) = 32 :: (p.text ++ trail ps) := by
  have hspace : utf8 " " = [32] := by decide
  rw [trail, texts, List.flatMap_cons, hspace, List.append_assoc, List.append_assoc, List.singleton_append, trail, hspace]

theorem trail_nil : trail [] = [41] := by decide

theorem text_list_cons (p : Form) (ps : List Form) : (list (p :: ps)).text = 40 :: (p.text ++ trail ps) := by
  have hopen : utf8 "(" = [40] := by decide
  rw [text, texts, join_cons, hopen, List.append_assoc, List.append_assoc]
  rfl

theorem text_list_nil : (list []).text = [40, 41] := by decide

theorem text_list (parts : List Form) : ∃ more, (list parts).text = 40 :: more := by
  cases parts with
  | nil => exact ⟨_, text_list_nil⟩
  | cons p ps => exact ⟨_, text_list_cons p ps⟩

theorem text_string (s : Bytes) : ∃ more, (literal (.string s)).text = 34 :: more := ⟨_, rfl⟩

theorem ends_trail (parts : List Form) (rest : Bytes) : Ends (trail parts ++ rest) := by
  intro b hb
  cases parts with
  | nil =>
    rw [trail_nil] at hb
    cases hb
    decide
  | cons p ps =>
    rw [trail_cons] at hb
    cases hb
    decide

/-- No form starts where a list ends. -/
theorem Readable.starts {x : Form} (h : x.Readable) : ∃ b more, x.text = b :: more ∧ b ≠ 41 := by
  rcases h.cases with hatom | ⟨s, rfl⟩ | ⟨parts, rfl, -⟩
  · obtain ⟨b, more, htext, hb⟩ := hatom.solid.starts
    refine ⟨b, more, htext, ?_⟩
    rintro rfl
    exact hb (by decide)
  · obtain ⟨more, htext⟩ := text_string s
    exact ⟨34, more, htext, by decide⟩
  · obtain ⟨more, htext⟩ := text_list parts
    exact ⟨40, more, htext, by decide⟩

theorem Atom.text_append_injective {x y : Form} {rest rest' : Bytes} (hx : Atom x) (hy : y.Readable)
    (hrest : Ends rest) (hrest' : Ends rest') (h : x.text ++ rest = y.text ++ rest') : x = y ∧ rest = rest' := by
  obtain ⟨b, more, htext, hb⟩ := hx.solid.starts
  rcases hy.cases with hatom | ⟨s, rfl⟩ | ⟨parts, rfl, -⟩
  · obtain ⟨heq, hrests⟩ := hx.solid.append_injective hatom.solid hrest hrest' h
    exact ⟨hx.text_injective hatom heq, hrests⟩
  · obtain ⟨more', htext'⟩ := text_string s
    rw [htext, htext'] at h
    exact absurd ((List.cons.inj h).1 ▸ hb) (by decide)
  · obtain ⟨more', htext'⟩ := text_list parts
    rw [htext, htext'] at h
    exact absurd ((List.cons.inj h).1 ▸ hb) (by decide)

theorem string_append_injective {s : Bytes} {y : Form} {rest rest' : Bytes} (hy : y.Readable)
    (hrest : Ends rest) (hrest' : Ends rest') (h : (literal (.string s)).text ++ rest = y.text ++ rest') :
    literal (.string s) = y ∧ rest = rest' := by
  rcases hy.cases with hatom | ⟨s', rfl⟩ | ⟨parts, rfl, -⟩
  · obtain ⟨heq, hrests⟩ := hatom.text_append_injective (y := .literal (.string s)) trivial hrest' hrest h.symm
    exact ⟨heq.symm, hrests.symm⟩
  · obtain ⟨rfl, hrests⟩ := Text.quote_append_injective h
    exact ⟨rfl, hrests⟩
  · obtain ⟨more, htext⟩ := text_string s
    obtain ⟨more', htext'⟩ := text_list parts
    rw [htext, htext'] at h
    exact absurd (List.cons.inj h).1 (by decide)

mutual

/-- At most one form stands at the front of a text. -/
theorem text_append_injective : (x : Form) → ∀ {y : Form} {rest rest' : Bytes}, x.Readable → y.Readable →
    Ends rest → Ends rest' → x.text ++ rest = y.text ++ rest' → x = y ∧ rest = rest'
  | .literal (.string _), _, _, _, _, hy, hrest, hrest', h => string_append_injective hy hrest hrest' h
  | .literal .nil, _, _, _, _, hy, hrest, hrest', h => Atom.nil.text_append_injective hy hrest hrest' h
  | .literal (.bool b), _, _, _, _, hy, hrest, hrest', h => (Atom.bool b).text_append_injective hy hrest hrest' h
  | .literal (.number _), _, _, _, ⟨_, hbits, heq⟩, hy, hrest, hrest', h => by
    subst heq
    exact (Atom.number hbits).text_append_injective hy hrest hrest' h
  | .word _, _, _, _, hx, hy, hrest, hrest', h => (Atom.word hx).text_append_injective hy hrest hrest' h
  | .list xs, y, rest, rest', hx, hy, hrest, hrest', h => by
    rcases hy.cases with hatom | ⟨s, rfl⟩ | ⟨ys, rfl, hys⟩
    · obtain ⟨heq, hrests⟩ := hatom.text_append_injective (y := .list xs) hx hrest' hrest h.symm
      exact ⟨heq.symm, hrests.symm⟩
    · obtain ⟨heq, hrests⟩ := string_append_injective (y := .list xs) hx hrest' hrest h.symm
      exact ⟨heq.symm, hrests.symm⟩
    · match xs, hx, ys, hys with
      | [], _, [], _ =>
        rw [text_list_nil] at h
        exact ⟨rfl, (List.cons.inj (List.cons.inj h).2).2⟩
      | [], _, y :: ys, hys =>
        obtain ⟨b, more, htext, hb⟩ := hys.1.starts
        rw [text_list_nil, text_list_cons, htext] at h
        exact absurd (List.cons.inj (List.cons.inj h).2).1.symm hb
      | x :: xs, hxs, [], _ =>
        obtain ⟨b, more, htext, hb⟩ := hxs.1.starts
        rw [text_list_nil, text_list_cons, htext] at h
        exact absurd (List.cons.inj (List.cons.inj h).2).1 hb
      | x :: xs, hxs, y :: ys, hys =>
        rw [text_list_cons, text_list_cons, List.cons_append, List.cons_append, List.append_assoc,
          List.append_assoc] at h
        obtain ⟨rfl, htrail⟩ :=
          text_append_injective x hxs.1 hys.1 (ends_trail xs rest) (ends_trail ys rest') (List.cons.inj h).2
        obtain ⟨rfl, hrests⟩ := trail_append_injective xs hxs.2 hys.2 htrail
        exact ⟨rfl, hrests⟩

theorem trail_append_injective : (xs : List Form) → ∀ {ys : List Form} {rest rest' : Bytes}, AllReadable xs →
    AllReadable ys → trail xs ++ rest = trail ys ++ rest' → xs = ys ∧ rest = rest'
  | [], [], _, _, _, _, h => ⟨rfl, List.append_cancel_left h⟩
  | [], y :: ys, _, _, _, _, h => by
    rw [trail_nil, trail_cons] at h
    exact absurd (List.cons.inj h).1 (by decide)
  | x :: xs, [], _, _, _, _, h => by
    rw [trail_nil, trail_cons] at h
    exact absurd (List.cons.inj h).1 (by decide)
  | x :: xs, y :: ys, rest, rest', hxs, hys, h => by
    rw [trail_cons, trail_cons, List.cons_append, List.cons_append, List.append_assoc, List.append_assoc] at h
    obtain ⟨rfl, htrail⟩ :=
      text_append_injective x hxs.1 hys.1 (ends_trail xs rest) (ends_trail ys rest') (List.cons.inj h).2
    obtain ⟨rfl, hrests⟩ := trail_append_injective xs hxs.2 hys.2 htrail
    exact ⟨rfl, hrests⟩

end

/-! ## Lines -/

theorem Solid.newline_not_mem {w : Bytes} (h : Solid w) : Text.newline ∉ w :=
  fun hmem => (solid_iff.mp h).2 _ hmem (by decide)

mutual

/-- A form is written on one line. -/
theorem newline_not_mem_text : (x : Form) → x.Readable → Text.newline ∉ x.text
  | .literal (.string s), _ => Text.newline_not_mem_quote s
  | .literal .nil, _ => Atom.nil.solid.newline_not_mem
  | .literal (.bool b), _ => (Atom.bool b).solid.newline_not_mem
  | .literal (.number _), ⟨_, hbits, heq⟩ => by
    subst heq
    exact (Atom.number hbits).solid.newline_not_mem
  | .word _, hx => hx.1.newline_not_mem
  | .list [], _ => by decide
  | .list (x :: xs), hx => by
    rw [text_list_cons, List.mem_cons, List.mem_append]
    rintro (hmem | hmem | hmem)
    · exact absurd hmem (by decide)
    · exact newline_not_mem_text x hx.1 hmem
    · exact newline_not_mem_trail xs hx.2 hmem

theorem newline_not_mem_trail : (xs : List Form) → AllReadable xs → Text.newline ∉ trail xs
  | [], _ => by decide
  | x :: xs, hxs => by
    rw [trail_cons, List.mem_cons, List.mem_append]
    rintro (hmem | hmem | hmem)
    · exact absurd hmem (by decide)
    · exact newline_not_mem_text x hxs.1 hmem
    · exact newline_not_mem_trail xs hxs.2 hmem

end

/-- Forms on lines of their own can be told apart. -/
theorem unlines_injective {xs ys : List Form} (hxs : AllReadable xs) (hys : AllReadable ys)
    (h : Text.unlines (texts xs) = Text.unlines (texts ys)) : xs = ys := by
  induction xs generalizing ys with
  | nil =>
    cases ys with
    | nil => rfl
    | cons y ys => simp [texts, Text.unlines] at h
  | cons x xs ih =>
    cases ys with
    | nil => simp [texts, Text.unlines] at h
    | cons y ys =>
      have hends : ∀ rest : Bytes, Ends ([Text.newline] ++ rest) := by
        intro rest b hb
        cases hb
        decide
      simp only [texts, Text.unlines, List.flatMap_cons, List.append_assoc] at h
      obtain ⟨rfl, hrest⟩ := text_append_injective x hxs.1 hys.1 (hends _) (hends _) h
      rw [ih hxs.2 hys.2 (List.append_cancel_left hrest)]

end Form

end Lox
