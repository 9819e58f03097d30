/-
  Lox.Proofs.Lexical.Front — the scanner finds the segment that fits. The first byte of a
  lexeme decides its class (`Shape`), so the scanner's choice by the first byte loses no
  lexeme, and each class is read as far as it goes. At the front of a text exactly one
  segment fits, and it is the one that the scanner takes (`fits_iff`).
-/

import Lox.Proofs.Lexical.Character
import Lox.Proofs.Token.Append

namespace Lox.Lexical

open Segment (isAlpha isWordByte isBlankByte numberTail operator front afterFront)

/-! ## Classes of bytes -/

theorem isDigit_iff (c : UInt8) : Text.isDigit c = true ↔ 48 ≤ c.toNat ∧ c.toNat ≤ 57 := by
  simp [Text.isDigit, UInt8.le_iff_toNat_le]

theorem isAlpha_iff (c : UInt8) :
    isAlpha c = true ↔ (97 ≤ c.toNat ∧ c.toNat ≤ 122) ∨ (65 ≤ c.toNat ∧ c.toNat ≤ 90) ∨ c.toNat = 95 := by
  unfold isAlpha
  simp only [Bool.or_eq_true, Bool.and_eq_true, decide_eq_true_eq, beq_iff_eq, UInt8.le_iff_toNat_le,
    ← UInt8.toNat_inj, or_assoc]
  rfl

theorem blank_iff (c : UInt8) : c ∈ blanks ↔ c.toNat = 32 ∨ c.toNat = 9 ∨ c.toNat = 13 ∨ c.toNat = 10 := by
  have hblanks : blanks = [32, 9, 13, 10] := by decide
  simp [hblanks, ← UInt8.toNat_inj]

theorem isBlankByte_iff (c : UInt8) : isBlankByte c = true ↔ c ∈ blanks := by
  rw [blank_iff]
  simp [isBlankByte, Text.newline, ← UInt8.toNat_inj, or_assoc, or_left_comm]

theorem mem_of_lookup {α β : Type} [BEq α] [LawfulBEq α] {l : List (α × β)} {a : α} {b : β} (h : l.lookup a = some b) :
    (a, b) ∈ l := by
  obtain ⟨l₁, l₂, rfl, -⟩ := List.lookup_eq_some_iff.mp h
  simp

/-- Symbols are in no other class of bytes. -/
theorem symbol_class {c : UInt8} {kind : TokenKind} (h : TokenKind.symbols.lookup c = some kind) :
    isAlpha c = false ∧ Text.isDigit c = false ∧ c ≠ Text.quoteMark ∧ c ∉ blanks := by
  have hall : ∀ e ∈ TokenKind.symbols,
      isAlpha e.1 = false ∧ Text.isDigit e.1 = false ∧ e.1 ≠ Text.quoteMark ∧ e.1 ∉ blanks := by decide
  exact hall _ (mem_of_lookup h)

/-! ## Shapes -/

def NumberTail (tail : Bytes) : Prop :=
  (∀ d ∈ tail, Text.isDigit d = true) ∨
    ∃ digits fraction, tail = digits ++ '.'.toUInt8 :: fraction ∧ (∀ d ∈ digits, Text.isDigit d = true) ∧
      fraction ≠ [] ∧ ∀ d ∈ fraction, Text.isDigit d = true

/-- The lexemes by their first byte, which tells the class. -/
inductive Shape : TokenKind → UInt8 → Bytes → Prop
  | word {c : UInt8} {tail : Bytes} :
      isAlpha c = true → (∀ b ∈ tail, isWordByte b = true) → Shape (TokenKind.ofWord (c :: tail)) c tail
  | number {c : UInt8} {tail : Bytes} : Text.isDigit c = true → NumberTail tail → Shape .number c tail
  | string {content : Bytes} : Text.quoteMark ∉ content → Shape .string Text.quoteMark (content ++ [Text.quoteMark])
  | symbol {kind : TokenKind} {c : UInt8} : TokenKind.symbols.lookup c = some kind → Shape kind c []
  | symbolEqual {kind longer : TokenKind} {c : UInt8} :
      TokenKind.symbols.lookup c = some kind → kind.withEqual? = some longer → Shape longer c ['='.toUInt8]

namespace Shape

variable {kind : TokenKind} {c : UInt8} {tail : Bytes}

theorem not_blank (h : Shape kind c tail) : c ∉ blanks := by
  rw [blank_iff]
  cases h with
  | word hc => rw [isAlpha_iff] at hc; omega
  | number hc => rw [isDigit_iff] at hc; omega
  | string => decide
  | symbol hc => exact fun hb => (symbol_class hc).2.2.2 ((blank_iff c).mpr hb)
  | symbolEqual hc => exact fun hb => (symbol_class hc).2.2.2 ((blank_iff c).mpr hb)

/-- A lexeme that starts with a letter is a word, and its kind is told by the whole word. -/
theorem of_alpha (h : Shape kind c tail) (hc : isAlpha c = true) :
    kind = TokenKind.ofWord (c :: tail) ∧ ∀ b ∈ tail, isWordByte b = true := by
  cases h with
  | word _ htail => exact ⟨rfl, htail⟩
  | number hd => rw [isAlpha_iff] at hc; rw [isDigit_iff] at hd; omega
  | string => exact absurd hc (by decide)
  | symbol hs => rw [(symbol_class hs).1] at hc; cases hc
  | symbolEqual hs => rw [(symbol_class hs).1] at hc; cases hc

theorem of_digit (h : Shape kind c tail) (hc : Text.isDigit c = true) : kind = .number ∧ NumberTail tail := by
  cases h with
  | word ha => rw [isAlpha_iff] at ha; rw [isDigit_iff] at hc; omega
  | number _ htail => exact ⟨rfl, htail⟩
  | string => exact absurd hc (by decide)
  | symbol hs => rw [(symbol_class hs).2.1] at hc; cases hc
  | symbolEqual hs => rw [(symbol_class hs).2.1] at hc; cases hc

theorem of_quote (h : Shape kind c tail) (hc : c = Text.quoteMark) :
    kind = .string ∧ ∃ content, Text.quoteMark ∉ content ∧ tail = content ++ [Text.quoteMark] := by
  cases h with
  | word ha => rw [hc] at ha; exact absurd ha (by decide)
  | number hd => rw [hc] at hd; exact absurd hd (by decide)
  | string hcontent => exact ⟨rfl, _, hcontent, rfl⟩
  | symbol hs => exact absurd hc (symbol_class hs).2.2.1
  | symbolEqual hs => exact absurd hc (symbol_class hs).2.2.1

/-- A lexeme that starts with an operator is that operator, or it with an equals sign. -/
theorem of_symbol {symbol : TokenKind} (h : Shape kind c tail) (hc : TokenKind.symbols.lookup c = some symbol) :
    kind = symbol ∧ tail = [] ∨ symbol.withEqual? = some kind ∧ tail = ['='.toUInt8] := by
  cases h with
  | word ha => rw [(symbol_class hc).1] at ha; cases ha
  | number hd => rw [(symbol_class hc).2.1] at hd; cases hd
  | string => exact absurd rfl (symbol_class hc).2.2.1
  | symbol hs =>
    rw [hc] at hs
    cases hs
    exact .inl ⟨rfl, rfl⟩
  | symbolEqual hs hequal =>
    rw [hc] at hs
    cases hs
    exact .inr ⟨hequal, rfl⟩

/-- A text is a token of one kind only. -/
theorem unique {kind' : TokenKind} (h : Shape kind c tail) (h' : Shape kind' c tail) : kind = kind' := by
  cases h with
  | word hc => exact (h'.of_alpha hc).1.symm
  | number hc => exact (h'.of_digit hc).1.symm
  | string => exact (h'.of_quote rfl).1.symm
  | symbol hc =>
    rcases h'.of_symbol hc with ⟨hk, -⟩ | ⟨-, htail⟩
    · exact hk.symm
    · cases htail
  | symbolEqual hc hequal =>
    rcases h'.of_symbol hc with ⟨-, htail⟩ | ⟨hequal', -⟩
    · cases htail
    · exact Option.some.inj (hequal.symm.trans hequal')

end Shape

/-- Fixed spellings have the shape that their first byte tells. -/
theorem shape_of_spelling {kind : TokenKind} {spelling : String} (h : kind.spelling = some spelling) :
    ∃ c tail, utf8 spelling = c :: tail ∧ Shape kind c tail := by
  have hcases : ∃ c tail, utf8 spelling = c :: tail ∧
      ((isAlpha c = true ∧ (∀ b ∈ tail, isWordByte b = true) ∧ TokenKind.ofWord (c :: tail) = kind) ∨
        (TokenKind.symbols.lookup c = some kind ∧ tail = []) ∨
        ∃ shorter ∈ TokenKind.symbols.lookup c, shorter.withEqual? = some kind ∧ tail = ['='.toUInt8]) := by
    cases kind <;> cases h
    all_goals
      refine ⟨_, _, rfl, ?_⟩
      decide +kernel
  obtain ⟨c, tail, heq, hshape⟩ := hcases
  refine ⟨c, tail, heq, ?_⟩
  rcases hshape with ⟨hc, htail, rfl⟩ | ⟨hc, rfl⟩ | ⟨shorter, hc, hequal, rfl⟩
  · exact .word hc htail
  · exact .symbol hc
  · exact .symbolEqual hc hequal

/-- The lexeme of a kind with a fixed spelling. -/
theorem lexeme_of_spelling {kind : TokenKind} {text : Bytes} (h : kind.spelling.map utf8 = some text) :
    Lexeme kind text := by
  obtain ⟨spelling, hs, rfl⟩ := Option.map_eq_some_iff.mp h
  exact .fixed hs

theorem keyword_spelling {word : Bytes} {kind : TokenKind} (h : TokenKind.keywords.lookup word = some kind) :
    kind.spelling.map utf8 = some word := by
  have hall : ∀ e ∈ TokenKind.keywords, e.2.spelling.map utf8 = some e.1 := by decide
  exact hall _ (mem_of_lookup h)

theorem symbol_spelling {c : UInt8} {kind : TokenKind} (h : TokenKind.symbols.lookup c = some kind) :
    kind.spelling.map utf8 = some [c] ∧
      ∀ longer ∈ kind.withEqual?, longer.spelling.map utf8 = some [c, '='.toUInt8] := by
  have hall : ∀ e ∈ TokenKind.symbols, e.2.spelling.map utf8 = some [e.1] ∧
      ∀ longer ∈ e.2.withEqual?, longer.spelling.map utf8 = some [e.1, '='.toUInt8] := by decide
  exact hall _ (mem_of_lookup h)

theorem ofWord_spelling {word : Bytes} (h : TokenKind.ofWord word ≠ .identifier) :
    (TokenKind.ofWord word).spelling.map utf8 = some word := by
  unfold TokenKind.ofWord at h ⊢
  cases hlookup : TokenKind.keywords.lookup word with
  | none => rw [hlookup] at h; exact absurd rfl h
  | some key => exact keyword_spelling hlookup

/-- Lexemes and shapes are the same thing: every lexeme has a shape. -/
theorem Lexeme.shape {kind : TokenKind} {lexeme : Bytes} (h : Lexeme kind lexeme) :
    ∃ c tail, lexeme = c :: tail ∧ Shape kind c tail := by
  cases h with
  | fixed hs => exact shape_of_spelling hs
  | @identifier c word hc hword hkey =>
    refine ⟨c, word, rfl, ?_⟩
    have hkind : TokenKind.ofWord (c :: word) = .identifier := by
      by_cases hk : TokenKind.ofWord (c :: word) = .identifier
      · exact hk
      · obtain ⟨spelling, hs, heq⟩ := Option.map_eq_some_iff.mp (ofWord_spelling hk)
        exact absurd heq.symm (hkey _ spelling hs)
    rw [← hkind]
    exact .word hc hword
  | whole hne hd =>
    cases lexeme with
    | nil => exact absurd rfl hne
    | cons c tail =>
      obtain ⟨hc, htail⟩ := List.forall_mem_cons.mp hd
      exact ⟨c, tail, rfl, .number hc (.inl htail)⟩
  | @decimal digits fraction hne hd hf hfd =>
    cases digits with
    | nil => exact absurd rfl hne
    | cons c tail =>
      obtain ⟨hc, htail⟩ := List.forall_mem_cons.mp hd
      have hpoint : utf8 "." = ['.'.toUInt8] := by decide
      refine ⟨c, tail ++ '.'.toUInt8 :: fraction, ?_, .number hc (.inr ⟨tail, fraction, rfl, htail, hf, hfd⟩)⟩
      simp [hpoint]
  | string hcontent => exact ⟨_, _, rfl, .string hcontent⟩

theorem Shape.lexeme {kind : TokenKind} {c : UInt8} {tail : Bytes} (h : Shape kind c tail) : Lexeme kind (c :: tail) := by
  cases h with
  | word hc htail =>
    by_cases hk : TokenKind.ofWord (c :: tail) = .identifier
    · rw [hk]
      refine .identifier hc htail fun kind spelling hs heq => ?_
      -- what is spelled as this word has a shape, and the shape makes it an identifier
      obtain ⟨c', tail', heq', hshape⟩ := shape_of_spelling hs
      obtain ⟨rfl, rfl⟩ := List.cons_eq_cons.mp (heq.trans heq')
      obtain ⟨rfl, -⟩ := hshape.of_alpha hc
      rw [hk] at hs
      cases hs
    · exact lexeme_of_spelling (ofWord_spelling hk)
  | number hc htail =>
    rcases htail with htail | ⟨digits, fraction, rfl, hd, hf, hfd⟩
    · exact .whole (List.cons_ne_nil _ _) (List.forall_mem_cons.mpr ⟨hc, htail⟩)
    · have hpoint : utf8 "." = ['.'.toUInt8] := by decide
      have hlexeme := Lexeme.decimal (List.cons_ne_nil c digits) (List.forall_mem_cons.mpr ⟨hc, hd⟩) hf hfd
      simpa [hpoint] using hlexeme
  | string hcontent => exact .string hcontent
  | symbol hc => exact lexeme_of_spelling (symbol_spelling hc).1
  | symbolEqual hc hequal => exact lexeme_of_spelling ((symbol_spelling hc).2 _ hequal)

/-! ## As far as it goes -/

theorem prefix_takeWhile {p : UInt8 → Bool} {text rest : Bytes} (h : text <+: rest) (hp : ∀ b ∈ text, p b = true) :
    text <+: rest.takeWhile p := by
  obtain ⟨more, rfl⟩ := h
  rw [List.takeWhile_append_of_pos hp]
  exact List.prefix_append _ _

theorem numberTail_isNumberTail (rest : Bytes) : NumberTail (numberTail rest) := by
  have hdigits : ∀ text : Bytes, ∀ d ∈ text.takeWhile Text.isDigit, Text.isDigit d = true :=
    fun text d hd => List.all_eq_true.mp List.all_takeWhile d hd
  unfold numberTail
  split
  · rename_i p d more _
    split
    · rename_i hpoint
      simp only [Bool.and_eq_true, decide_eq_true_eq] at hpoint
      refine .inr ⟨_, (d :: more).takeWhile Text.isDigit, by rw [hpoint.1], hdigits rest, ?_, hdigits _⟩
      simp [hpoint.2]
    · exact .inl (hdigits rest)
  · exact .inl (hdigits rest)

/-- The scanner takes a number as far as it goes. -/
theorem length_le_numberTail {tail rest : Bytes} (h : NumberTail tail) (hstarts : tail <+: rest) :
    tail.length ≤ (numberTail rest).length := by
  rcases h with hd | ⟨digits, fraction, rfl, hd, hf, hfd⟩
  · have hle := (prefix_takeWhile hstarts hd).length_le
    refine Nat.le_trans hle ?_
    unfold numberTail
    split
    · split
      · simp
      · exact Nat.le_refl _
    · exact Nat.le_refl _
  · obtain ⟨more, rfl⟩ := hstarts
    cases fraction with
    | nil => exact absurd rfl hf
    | cons f fraction =>
      have hf := (List.forall_mem_cons.mp hfd).1
      have hstop : Text.isDigit '.'.toUInt8 = false := by decide
      have htake : (digits ++ '.'.toUInt8 :: (f :: fraction) ++ more).takeWhile Text.isDigit = digits := by
        rw [List.append_assoc, List.takeWhile_append_of_pos hd]
        simp [hstop]
      have hdrop : (digits ++ '.'.toUInt8 :: (f :: fraction) ++ more).dropWhile Text.isDigit =
          '.'.toUInt8 :: f :: (fraction ++ more) := by
        rw [List.append_assoc, List.dropWhile_append_of_pos hd]
        simp [hstop]
      have hfraction : (f :: fraction) <+: (f :: (fraction ++ more)).takeWhile Text.isDigit :=
        prefix_takeWhile (List.prefix_append (f :: fraction) more) hfd
      have hle := hfraction.length_le
      unfold numberTail
      simp only [htake, hdrop, hf, Bool.and_self, decide_true, if_true, List.length_append, List.length_cons] at hle ⊢
      omega

/-- A run of other bytes goes on to the first occurrence of a byte, or to the end. -/
theorem takeWhile_ne {stop : UInt8} {text : Bytes} (h : stop ∉ text) (more : Bytes)
    (hmore : more = [] ∨ more.head? = some stop) :
    (text ++ more).takeWhile (· != stop) = text ∧ (text ++ more).dropWhile (· != stop) = more := by
  have hall : ∀ b ∈ text, (b != stop) = true := fun b hb => bne_iff_ne.mpr fun heq => h (heq ▸ hb)
  rw [List.takeWhile_append_of_pos hall, List.dropWhile_append_of_pos hall]
  cases more with
  | nil => simp
  | cons b more =>
    obtain rfl : b = stop := by simpa using hmore
    simp

theorem exists_run (stop : UInt8) (text : Bytes) :
    ∃ run more, text = run ++ more ∧ stop ∉ run ∧ (more = [] ∨ more.head? = some stop) := by
  by_cases h : stop ∈ text
  · obtain ⟨run, more, heq, hrun⟩ := List.eq_append_cons_of_mem h
    exact ⟨run, stop :: more, heq, hrun, .inr rfl⟩
  · exact ⟨text, [], (List.append_nil text).symm, h, .inl rfl⟩

/-- An operator takes an equals sign with it if there is a longer one. -/
theorem operator_cases (kind : TokenKind) (rest : Bytes) :
    (∃ longer, kind.withEqual? = some longer ∧ rest.head? = some '='.toUInt8 ∧
      operator kind rest = (longer, ['='.toUInt8])) ∨
    (∀ longer, kind.withEqual? = some longer → rest.head? ≠ some '='.toUInt8) ∧ operator kind rest = (kind, []) := by
  unfold operator
  split
  · rename_i longer e more hlonger
    by_cases he : e = '='.toUInt8
    · subst he
      exact .inl ⟨longer, hlonger, rfl, if_pos rfl⟩
    · exact .inr ⟨fun _ _ hhead => he (by simpa using hhead), if_neg he⟩
  · rename_i hnone
    refine .inr ⟨fun longer hlonger hhead => ?_, rfl⟩
    obtain ⟨more, hrest⟩ := List.head?_eq_some_iff.mp hhead
    exact hnone longer _ more hlonger hrest

/-! ## What the scanner takes -/

section

variable {c : UInt8} {rest : Bytes}

theorem commentMark_eq : commentMark = ['/'.toUInt8, '/'.toUInt8] := by decide

theorem mark_iff : commentMark <+: c :: rest ↔ c = '/'.toUInt8 ∧ rest.head? = some '/'.toUInt8 := by
  rw [commentMark_eq, List.cons_prefix_cons]
  cases rest with
  | nil => simp
  | cons d rest => simp [List.cons_prefix_cons, eq_comm]

theorem front_blank (h : c ∈ blanks) : front c rest = ⟨.blank, [c]⟩ := by
  simp [front, (isBlankByte_iff c).mpr h]

/-- A comment is taken up to its newline, or to the end. -/
theorem front_comment {body more : Bytes} (h : Text.newline ∉ body) (hmore : more = [] ∨ more.head? = some Text.newline)
    (heq : commentMark ++ body ++ more = c :: rest) : front c rest = ⟨.comment, commentMark ++ body⟩ := by
  rw [commentMark_eq] at heq ⊢
  obtain ⟨hc, hrest⟩ := List.cons_eq_cons.mp heq
  have hrest : rest = '/'.toUInt8 :: body ++ more := hrest.symm
  have hrun : Text.newline ∉ '/'.toUInt8 :: body := by simpa using ⟨by decide, h⟩
  have hblank : isBlankByte '/'.toUInt8 = false := by decide
  unfold front
  rw [← hc, hblank, hrest, (takeWhile_ne hrun more hmore).1]
  rfl

/-- Where no blank and no comment starts, the byte itself decides. -/
theorem front_other (hblank : c ∉ blanks) (hmark : ¬ commentMark <+: c :: rest) :
    front c rest =
      if c = Text.quoteMark then
        match rest.dropWhile (· != Text.quoteMark) with
        | q :: _ => ⟨.token .string, c :: rest.takeWhile (· != Text.quoteMark) ++ [q]⟩
        | [] => ⟨.unterminated, c :: rest.takeWhile (· != Text.quoteMark)⟩
      else if Text.isDigit c then ⟨.token .number, c :: numberTail rest⟩
      else if isAlpha c then
        ⟨.token (TokenKind.ofWord (c :: rest.takeWhile isWordByte)), c :: rest.takeWhile isWordByte⟩
      else match TokenKind.symbols.lookup c with
        | some kind => ⟨.token (operator kind rest).1, c :: (operator kind rest).2⟩
        | none => ⟨.unexpected, (Utf8.first c rest).bytes⟩ := by
  have hb : isBlankByte c = false := by
    rw [← Bool.not_eq_true, isBlankByte_iff]
    exact hblank
  have hm : (c = '/'.toUInt8 && rest.head? == some '/'.toUInt8) = false := by
    rw [← Bool.not_eq_true]
    simpa [mark_iff] using hmark
  unfold front
  rw [hb, hm]
  rfl

theorem mark_ne_quote : ¬ commentMark <+: Text.quoteMark :: rest := by
  rw [mark_iff]
  exact fun h => absurd h.1 (by decide)

/-- A byte of a class without slash and quote starts neither a comment nor a string. -/
theorem not_special_of_class {p : UInt8 → Bool} (hp : p '/'.toUInt8 = false ∧ p Text.quoteMark = false)
    (hc : p c = true) : ¬ commentMark <+: c :: rest ∧ c ≠ Text.quoteMark := by
  constructor
  · intro h
    rw [(mark_iff.mp h).1, hp.1] at hc
    cases hc
  · intro h
    rw [h, hp.2] at hc
    cases hc

/-- A string is taken up to the next quote. -/
theorem front_string {content more : Bytes} (h : Text.quoteMark ∉ content) :
    front Text.quoteMark (content ++ Text.quoteMark :: more) =
      ⟨.token .string, Text.quoteMark :: (content ++ [Text.quoteMark])⟩ := by
  obtain ⟨htake, hdrop⟩ := takeWhile_ne h (Text.quoteMark :: more) (.inr rfl)
  rw [front_other (by decide) mark_ne_quote, if_pos rfl, htake, hdrop]
  rfl

theorem front_unterminated (h : Text.quoteMark ∉ rest) :
    front Text.quoteMark rest = ⟨.unterminated, Text.quoteMark :: rest⟩ := by
  obtain ⟨htake, hdrop⟩ := takeWhile_ne h [] (.inl rfl)
  rw [List.append_nil] at htake hdrop
  rw [front_other (by decide) mark_ne_quote, if_pos rfl, htake, hdrop]

/-- Where no lexeme starts, one character is taken. -/
theorem front_unexpected (hblank : c ∉ blanks) (hquote : c ≠ Text.quoteMark)
    (hlexeme : ∀ kind lexeme, Lexeme kind lexeme → ¬ lexeme <+: c :: rest) :
    front c rest = ⟨.unexpected, (Utf8.first c rest).bytes⟩ := by
  have hshape : ∀ kind, ¬ Shape kind c [] := by
    intro kind h
    exact hlexeme kind [c] h.lexeme (by simp)
  have hdigit : ¬ Text.isDigit c = true := fun h => hshape _ (.number h (.inl (by simp)))
  have halpha : ¬ isAlpha c = true := fun h => hshape _ (.word h (by simp))
  have hsymbol : TokenKind.symbols.lookup c = none := by
    cases h : TokenKind.symbols.lookup c with
    | none => rfl
    | some kind => exact absurd (.symbol h) (hshape kind)
  have hmark : ¬ commentMark <+: c :: rest := by
    intro h
    have hslash : TokenKind.symbols.lookup c = some .slash := by rw [(mark_iff.mp h).1]; decide
    rw [hslash] at hsymbol
    cases hsymbol
  rw [front_other hblank hmark, if_neg hquote, if_neg hdigit, if_neg halpha, hsymbol]

/-! ## It fits -/

/-- A token of some shape fits if no shape at the same place is longer. -/
theorem fits_of_shape {kind : TokenKind} {tail : Bytes} (hfront : front c rest = ⟨.token kind, c :: tail⟩)
    (h : Shape kind c tail)
    (hlongest : ∀ kind' tail', Shape kind' c tail' → tail' <+: rest → tail'.length ≤ tail.length)
    (hmark : ¬ commentMark <+: c :: rest) : Fits (front c rest) (afterFront c rest) := by
  have happend := Segment.front_text_append c rest
  rw [hfront] at happend ⊢
  refine .token h.lexeme (fun kind' lexeme' h' hstarts => ?_) (by rw [happend]; exact hmark)
  obtain ⟨c', tail', rfl, hshape⟩ := h'.shape
  rw [happend, List.cons_prefix_cons] at hstarts
  obtain ⟨rfl, hstarts⟩ := hstarts
  exact Nat.succ_le_succ (hlongest kind' tail' hshape hstarts)

theorem fits_quote (hc : c = Text.quoteMark) : Fits (front c rest) (afterFront c rest) := by
  subst hc
  by_cases hquote : Text.quoteMark ∈ rest
  · obtain ⟨content, more, rfl, hcontent⟩ := List.eq_append_cons_of_mem hquote
    refine fits_of_shape (front_string hcontent) (.string hcontent) (fun kind' tail' h' hstarts => ?_) mark_ne_quote
    obtain ⟨-, content', hcontent', rfl⟩ := h'.of_quote rfl
    obtain ⟨more', hmore⟩ := hstarts
    have htake := (takeWhile_ne hcontent (Text.quoteMark :: more) (.inr rfl)).1
    have htake' := (takeWhile_ne hcontent' (Text.quoteMark :: more') (.inr rfl)).1
    rw [List.append_assoc, List.singleton_append] at hmore
    rw [← hmore, htake'] at htake
    exact Nat.le_of_eq (by rw [htake])
  · have happend := Segment.front_text_append Text.quoteMark rest
    rw [front_unterminated hquote] at happend ⊢
    obtain ⟨-, hafter⟩ := List.cons_eq_cons.mp happend
    rw [List.append_right_eq_self.mp hafter]
    exact .unterminated hquote

theorem fits_digit (hc : Text.isDigit c = true) : Fits (front c rest) (afterFront c rest) := by
  have hshape : Shape .number c (numberTail rest) := .number hc (numberTail_isNumberTail rest)
  obtain ⟨hmark, hquote⟩ := not_special_of_class (p := Text.isDigit) (by decide) hc
  have hfront : front c rest = ⟨.token .number, c :: numberTail rest⟩ := by
    rw [front_other hshape.not_blank hmark, if_neg hquote, if_pos hc]
  exact fits_of_shape hfront hshape
    (fun kind' tail' h' hstarts => length_le_numberTail (h'.of_digit hc).2 hstarts) hmark

theorem fits_alpha (hc : isAlpha c = true) : Fits (front c rest) (afterFront c rest) := by
  have hshape : Shape (TokenKind.ofWord (c :: rest.takeWhile isWordByte)) c (rest.takeWhile isWordByte) :=
    .word hc fun b hb => List.all_eq_true.mp List.all_takeWhile b hb
  obtain ⟨hmark, hquote⟩ := not_special_of_class (p := isAlpha) (by decide) hc
  have hdigit : ¬ Text.isDigit c = true := by
    rw [isAlpha_iff] at hc
    rw [isDigit_iff]
    omega
  have hfront := front_other hshape.not_blank hmark
  rw [if_neg hquote, if_neg hdigit, if_pos hc] at hfront
  exact fits_of_shape hfront hshape
    (fun kind' tail' h' hstarts => (prefix_takeWhile hstarts (h'.of_alpha hc).2).length_le) hmark

theorem fits_symbol {kind : TokenKind} (hc : TokenKind.symbols.lookup c = some kind)
    (hmark : ¬ commentMark <+: c :: rest) : Fits (front c rest) (afterFront c rest) := by
  obtain ⟨halpha, hdigit, hquote, hblank⟩ := symbol_class hc
  have hfront := front_other hblank hmark
  rw [if_neg hquote, if_neg (by simp [hdigit]), if_neg (by simp [halpha]), hc] at hfront
  dsimp only at hfront
  rcases operator_cases kind rest with ⟨longer, hlonger, -, hop⟩ | ⟨hnone, hop⟩
  · have hfront : front c rest = ⟨.token longer, [c, '='.toUInt8]⟩ := by rw [hfront, hop]
    refine fits_of_shape hfront (.symbolEqual hc hlonger) (fun kind' tail' h' _ => ?_) hmark
    rcases h'.of_symbol hc with ⟨-, rfl⟩ | ⟨-, rfl⟩ <;> simp
  · have hfront : front c rest = ⟨.token kind, [c]⟩ := by rw [hfront, hop]
    refine fits_of_shape hfront (.symbol hc) (fun kind' tail' h' hstarts => ?_) hmark
    rcases h'.of_symbol hc with ⟨-, rfl⟩ | ⟨hlonger, rfl⟩
    · exact Nat.le_refl _
    · obtain ⟨more, rfl⟩ := hstarts
      exact absurd rfl (hnone kind' hlonger)

/-- A character has no blank and no quote in it unless it starts with one. -/
theorem Character.not_special {char after : Bytes} (h : Character char after) (heq : char ++ after = c :: rest)
    (hblank : c ∉ blanks) (hquote : c ≠ Text.quoteMark) : ∀ b ∈ char, b ∉ blanks ∧ b ≠ Text.quoteMark := by
  intro b hb
  rcases h.ascii_free with hone | hhigh
  · obtain ⟨d, rfl⟩ := List.length_eq_one_iff.mp hone
    obtain ⟨rfl, -⟩ := List.cons_eq_cons.mp heq
    obtain rfl := List.mem_singleton.mp hb
    exact ⟨hblank, hquote⟩
  · have hb := hhigh b hb
    have hmark : Text.quoteMark.toNat = 34 := rfl
    rw [blank_iff, ne_eq, ← UInt8.toNat_inj]
    omega

/-- The scanner takes a segment that fits. -/
theorem front_fits (c : UInt8) (rest : Bytes) : Fits (front c rest) (afterFront c rest) := by
  have happend := Segment.front_text_append c rest
  by_cases hblank : c ∈ blanks
  · rw [front_blank hblank]
    exact .blank hblank
  by_cases hmark : commentMark <+: c :: rest
  · obtain ⟨text, htext⟩ := hmark
    obtain ⟨body, more, rfl, hbody, hmore⟩ := exists_run Text.newline text
    rw [← List.append_assoc] at htext
    have hfront := front_comment hbody hmore htext
    rw [hfront, ← htext, List.append_cancel_left_eq] at happend
    rw [hfront, happend]
    exact .comment hbody hmore
  by_cases hquote : c = Text.quoteMark
  · exact fits_quote hquote
  by_cases hdigit : Text.isDigit c = true
  · exact fits_digit hdigit
  by_cases halpha : isAlpha c = true
  · exact fits_alpha halpha
  cases hsymbol : TokenKind.symbols.lookup c with
  | some kind => exact fits_symbol hsymbol hmark
  | none =>
    have hfront := front_other hblank hmark
    rw [if_neg hquote, if_neg hdigit, if_neg halpha, hsymbol] at hfront
    dsimp only at hfront
    rw [hfront] at happend ⊢
    have hchar := (character_iff happend).mpr rfl
    refine .unexpected hchar (hchar.not_special happend hblank hquote) fun kind lexeme hlexeme hstarts => ?_
    rw [happend] at hstarts
    obtain ⟨c', tail, rfl, hshape⟩ := hlexeme.shape
    obtain ⟨rfl, -⟩ := List.cons_prefix_cons.mp hstarts
    cases hshape with
    | word h => exact halpha h
    | number h => exact hdigit h
    | string => exact hquote rfl
    | symbol h => rw [hsymbol] at h; cases h
    | symbolEqual h => rw [hsymbol] at h; cases h

/-! ## Nothing else fits -/

/-- A token that fits is the one that the scanner takes. -/
theorem Fits.eq_front_of_token {kind : TokenKind} {lexeme after : Bytes} (h : Fits ⟨.token kind, lexeme⟩ after)
    (heq : lexeme ++ after = c :: rest) : front c rest = ⟨.token kind, lexeme⟩ := by
  cases h with
  | token hlexeme hlongest hmark =>
    rw [heq] at hlongest hmark
    obtain ⟨c', tail, rfl, hshape⟩ := hlexeme.shape
    obtain ⟨rfl, htail⟩ := List.cons_eq_cons.mp heq
    have hfits := front_fits c' rest
    have happend := Segment.front_text_append c' rest
    -- what the scanner takes is a token of the same length, since both are the longest
    generalize front c' rest = segment, afterFront c' rest = after' at hfits happend
    cases hfits with
    | @token kind' lexeme' _ hlexeme' hlongest' _ =>
      rw [happend] at hlongest'
      have hstarts' : lexeme' <+: c' :: rest := ⟨_, happend⟩
      have hstarts : c' :: tail <+: c' :: rest := ⟨_, heq⟩
      have hle := hlongest _ _ hlexeme' hstarts'
      have hle' := hlongest' _ _ hlexeme hstarts
      have hsame : lexeme' = c' :: tail :=
        (List.prefix_of_prefix_length_le hstarts' hstarts hle).eq_of_length_le hle'
      subst hsame
      obtain ⟨_, _, hcons, hshape'⟩ := hlexeme'.shape
      obtain ⟨rfl, rfl⟩ := List.cons_eq_cons.mp hcons
      rw [hshape.unique hshape']
    | blank hblank =>
      obtain ⟨rfl, -⟩ := List.cons_eq_cons.mp happend
      exact absurd hblank hshape.not_blank
    | comment =>
      rw [← happend, List.append_assoc] at hmark
      exact absurd (List.prefix_append _ _) hmark
    | unexpected _ _ hnone =>
      rw [happend] at hnone
      exact absurd ⟨_, heq⟩ (hnone _ _ hlexeme)
    | unterminated hcontent =>
      rw [List.append_nil] at happend
      obtain ⟨rfl, rfl⟩ := List.cons_eq_cons.mp happend
      obtain ⟨-, content, -, rfl⟩ := hshape.of_quote rfl
      exact absurd (by rw [← htail]; simp) hcontent

/-- Exactly one segment fits at the front of a text, and the scanner takes it. -/
theorem fits_iff {segment : Segment} {after : Bytes} (heq : segment.text ++ after = c :: rest) :
    Fits segment after ↔ front c rest = segment := by
  constructor
  · intro h
    cases h with
    | token hlexeme hlongest hmark => exact (Fits.token hlexeme hlongest hmark).eq_front_of_token heq
    | blank hblank =>
      obtain ⟨rfl, -⟩ := List.cons_eq_cons.mp heq
      exact front_blank hblank
    | comment hbody hmore => exact front_comment hbody hmore heq
    | @unexpected char _ hchar hspecial hnone =>
      have heq : char ++ after = c :: rest := heq
      obtain ⟨hblank, hquote⟩ := hspecial c (hchar.head_mem heq)
      rw [heq] at hnone
      rw [front_unexpected hblank hquote hnone, ← (character_iff heq).mp hchar]
    | unterminated hcontent =>
      rw [List.append_nil] at heq
      obtain ⟨rfl, rfl⟩ := List.cons_eq_cons.mp heq
      exact front_unterminated hcontent
  · intro h
    have happend := Segment.front_text_append c rest
    have hfits := front_fits c rest
    rw [h] at happend hfits
    rw [← heq, List.append_cancel_left_eq] at happend
    rw [← happend]
    exact hfits

end

end Lox.Lexical
