/-
  Lox.Proofs.Brackets — the brackets that a text leaves open are those of its tokens. The
  count goes through a text on its own, byte by byte; here it is read off the segments. A
  bracket changes it by one, and everything else passes by (`countFrom_segment`). A string that
  is cut off counts for one, and no other segment counts before it ends
  (`countFrom_cut`). So the count of a whole text is that of its tokens, and one more if
  its last string does not end (`count_eq_tokens`).
-/

import Lox.Brackets
import Lox.Proofs.Lexical.Scan

namespace Lox

namespace TokenKind

def opens : TokenKind → Bool
  | .leftParen | .leftBrace => true
  | _ => false

def closes : TokenKind → Bool
  | .rightParen | .rightBrace => true
  | _ => false

/-- By how much a token changes the number of open brackets. -/
def change (kind : TokenKind) : Int := if kind.opens then 1 else if kind.closes then -1 else 0

end TokenKind

namespace SegmentKind

def change : SegmentKind → Int
  | .token kind => kind.change
  | _ => 0

def quoted : SegmentKind → Bool
  | .token .string | .unterminated => true
  | _ => false

theorem quoted_iff {kind : SegmentKind} : kind.quoted = true ↔ kind = .token .string ∨ kind = .unterminated := by
  constructor
  · intro h
    unfold quoted at h
    split at h
    · exact .inl rfl
    · exact .inr rfl
    · cases h
  · intro h
    rcases h with rfl | rfl <;> rfl

end SegmentKind

namespace Brackets

open Lexical
open Segment (split isWordByte)

/-! ## One byte -/

/-- The bytes that the count looks at. -/
def marks : Bytes := utf8 "()\x7b\x7d\"/"

variable {depth : Int} {c : UInt8} {rest text more : Bytes}

theorem mem_marks : c ∈ marks ↔
    c.toNat = 40 ∨ c.toNat = 41 ∨ c.toNat = 123 ∨ c.toNat = 125 ∨ c.toNat = 34 ∨ c.toNat = 47 := by
  have hmarks : marks = [40, 41, 123, 125, 34, 47] := by decide
  simp [hmarks, ← UInt8.toNat_inj]

theorem countFrom_nil : countFrom depth [] = depth := by
  rw [countFrom]

theorem countFrom_pass (h : c ∉ marks) : countFrom depth (c :: rest) = countFrom depth rest := by
  have hmarks : marks = ['('.toUInt8, ')'.toUInt8, Text.openBrace, Text.closeBrace, Text.quoteMark, '/'.toUInt8] := by
    decide
  simp only [hmarks, List.mem_cons, List.not_mem_nil, or_false, not_or] at h
  obtain ⟨h₁, h₂, h₃, h₄, h₅, h₆⟩ := h
  rw [countFrom]
  simp [h₁, h₂, h₃, h₄, h₅, h₆]

theorem countFrom_plain (h : ∀ b ∈ text, b ∉ marks) : countFrom depth (text ++ more) = countFrom depth more := by
  induction text with
  | nil => rfl
  | cons c text ih =>
    obtain ⟨hc, htext⟩ := List.forall_mem_cons.mp h
    rw [List.cons_append, countFrom_pass hc, ih htext]

theorem countFrom_slash (h : rest.head? ≠ some '/'.toUInt8) :
    countFrom depth ('/'.toUInt8 :: rest) = countFrom depth rest := by
  rw [countFrom, if_neg (by decide), if_neg (by decide), if_neg (by decide), if_neg (by simpa using h)]

/-- A comment counts for nothing, whatever brackets it holds. -/
theorem countFrom_comment (h : Text.newline ∉ text) (hmore : more = [] ∨ more.head? = some Text.newline) :
    countFrom depth (commentMark ++ text ++ more) = countFrom depth more := by
  have hslash : Text.newline ∉ '/'.toUInt8 :: text := by
    rw [List.mem_cons, not_or]
    exact ⟨by decide, h⟩
  have hafter := (takeWhile_ne hslash more hmore).2
  rw [commentMark_eq, List.cons_append, List.cons_append, countFrom, if_neg (by decide), if_neg (by decide),
    if_neg (by decide), if_pos (by simp), afterComment]
  exact congrArg (countFrom depth) hafter

/-- Neither does a string that is closed. -/
theorem countFrom_string (h : Text.quoteMark ∉ text) :
    countFrom depth (Text.quoteMark :: text ++ Text.quoteMark :: more) = countFrom depth more := by
  have hafter : afterString? (text ++ Text.quoteMark :: more) = some more := by
    rw [afterString?, (takeWhile_ne h _ (.inr rfl)).2]
  rw [List.cons_append, countFrom, if_neg (by decide), if_neg (by decide), if_pos rfl]
  split
  · rename_i hnone
    rw [hafter] at hnone
    cases hnone
  · rename_i hsome
    rw [hafter] at hsome
    cases hsome
    rfl

/-- A string without an end counts as one open bracket. -/
theorem countFrom_unterminated (h : Text.quoteMark ∉ text) : countFrom depth (Text.quoteMark :: text) = depth + 1 := by
  have hafter : afterString? text = none := by
    have hdrop := (takeWhile_ne h [] (.inl rfl)).2
    rw [List.append_nil] at hdrop
    rw [afterString?, hdrop]
  rw [countFrom, if_neg (by decide), if_neg (by decide), if_pos rfl]
  split
  · rfl
  · rename_i hsome
    rw [hafter] at hsome
    cases hsome

/-! ## One segment -/

def brackets : List (UInt8 × TokenKind) := [('('.toUInt8, .leftParen), (')'.toUInt8, .rightParen),
  (Text.openBrace, .leftBrace), (Text.closeBrace, .rightBrace)]

/-- A bracket changes the count as its token says. -/
theorem countFrom_bracket {kind : TokenKind} (h : (c, kind) ∈ brackets) :
    countFrom depth (c :: rest) = countFrom (depth + kind.change) rest := by
  simp only [brackets, List.mem_cons, List.not_mem_nil, or_false, Prod.mk.injEq] at h
  rcases h with ⟨rfl, rfl⟩ | ⟨rfl, rfl⟩ | ⟨rfl, rfl⟩ | ⟨rfl, rfl⟩
  · rw [countFrom, if_pos (by decide)]; rfl
  · rw [countFrom, if_neg (by decide), if_pos (by decide)]; rfl
  · rw [countFrom, if_pos (by decide)]; rfl
  · rw [countFrom, if_neg (by decide), if_pos (by decide)]; rfl

theorem not_mark_of_digit (h : Text.isDigit c = true) : c ∉ marks := by
  rw [isDigit_iff] at h
  rw [mem_marks]
  omega

theorem not_mark_of_word (h : isWordByte c = true) : c ∉ marks := by
  unfold isWordByte at h
  rcases Bool.or_eq_true_iff.mp h with halpha | hdigit
  · rw [isAlpha_iff] at halpha
    rw [mem_marks]
    omega
  · exact not_mark_of_digit hdigit

/-- A lexeme that is neither a bracket nor a slash nor a string has no mark in it. -/
theorem lexeme_cases {kind : TokenKind} {lexeme : Bytes} (h : Lexeme kind lexeme) :
    (∃ c, lexeme = [c] ∧ (c, kind) ∈ brackets) ∨
      (kind = .slash ∧ lexeme = ['/'.toUInt8]) ∨
      (kind = .string ∧ ∃ content, Text.quoteMark ∉ content ∧
        lexeme = Text.quoteMark :: content ++ [Text.quoteMark]) ∨
      (kind.change = 0 ∧ kind ≠ .string ∧ ∀ b ∈ lexeme, b ∉ marks) := by
  obtain ⟨c, tail, rfl, hshape⟩ := h.shape
  cases hshape with
  | word hc htail =>
    have hkind : (TokenKind.ofWord (c :: tail)).change = 0 ∧ TokenKind.ofWord (c :: tail) ≠ .string := by
      have hall : ∀ e ∈ TokenKind.keywords, e.2.change = 0 ∧ e.2 ≠ .string := by decide
      unfold TokenKind.ofWord
      cases hlookup : TokenKind.keywords.lookup (c :: tail) with
      | none => exact ⟨rfl, by decide⟩
      | some kind => exact hall _ (mem_of_lookup hlookup)
    refine .inr (.inr (.inr ⟨hkind.1, hkind.2, ?_⟩))
    have hfirst : isWordByte c = true := by simp [isWordByte, hc]
    exact List.forall_mem_cons.mpr ⟨not_mark_of_word hfirst, fun b hb => not_mark_of_word (htail b hb)⟩
  | number hc htail =>
    refine .inr (.inr (.inr ⟨rfl, by decide, ?_⟩))
    have hbytes : ∀ b ∈ tail, Text.isDigit b = true ∨ b = '.'.toUInt8 := by
      intro b hb
      rcases htail with htail | ⟨digits, fraction, rfl, hdigits, -, hfraction⟩
      · exact .inl (htail b hb)
      · simp only [List.mem_append, List.mem_cons] at hb
        rcases hb with hb | hb | hb
        · exact .inl (hdigits b hb)
        · exact .inr hb
        · exact .inl (hfraction b hb)
    refine List.forall_mem_cons.mpr ⟨not_mark_of_digit hc, fun b hb => ?_⟩
    rcases hbytes b hb with hdigit | rfl
    · exact not_mark_of_digit hdigit
    · decide
  | string hcontent => exact .inr (.inr (.inl ⟨rfl, _, hcontent, rfl⟩))
  | symbol hc =>
    have hall : ∀ e ∈ TokenKind.symbols, e ∈ brackets ∨ (e.2 = .slash ∧ e.1 = '/'.toUInt8) ∨
        (e.2.change = 0 ∧ e.2 ≠ .string ∧ e.1 ∉ marks) := by decide
    rcases hall _ (mem_of_lookup hc) with hbracket | ⟨hkind, hslash⟩ | ⟨hchange, hkind, hmark⟩
    · exact .inl ⟨c, rfl, hbracket⟩
    · exact .inr (.inl ⟨hkind, congrArg (fun c => [c]) hslash⟩)
    · exact .inr (.inr (.inr ⟨hchange, hkind, List.forall_mem_singleton.mpr hmark⟩))
  | symbolEqual hc hequal =>
    have hall : ∀ e ∈ TokenKind.symbols, ∀ longer ∈ e.2.withEqual?,
        longer.change = 0 ∧ longer ≠ .string ∧ ∀ b ∈ [e.1, '='.toUInt8], b ∉ marks := by decide +kernel
    exact .inr (.inr (.inr (hall _ (mem_of_lookup hc) _ hequal)))

/-- No bracket, slash or quote is unexpected. -/
theorem unexpected_plain {char : Bytes} (hchar : Character char rest)
    (hquote : ∀ b ∈ char, b ∉ blanks ∧ b ≠ Text.quoteMark)
    (hnone : ∀ kind lexeme, Lexeme kind lexeme → ¬ lexeme <+: char ++ rest) : ∀ b ∈ char, b ∉ marks := by
  intro b hb hmark
  rcases hchar.ascii_free with hone | hhigh
  · obtain ⟨c, rfl⟩ := List.length_eq_one_iff.mp hone
    obtain rfl := List.mem_singleton.mp hb
    have hall : ∀ b ∈ marks, b = Text.quoteMark ∨
        ∃ kind ∈ TokenKind.symbols.lookup b, kind.spelling.map utf8 = some [b] := by decide +kernel
    rcases hall b hmark with rfl | ⟨kind, -, hspelling⟩
    · exact (hquote _ hb).2 rfl
    · exact hnone kind [b] (lexeme_of_spelling hspelling) (List.prefix_append _ _)
  · have hhigh := hhigh b hb
    rw [mem_marks] at hmark
    omega

/-- A segment changes the count by its own bracket, whatever part of the text is counted
after it. -/
theorem countFrom_segment {segment : Segment} (h : Fits segment rest) (hkind : segment.kind ≠ .unterminated)
    (hmore : more <+: rest) :
    countFrom depth (segment.text ++ more) = countFrom (depth + segment.kind.change) more := by
  have hskip : ∀ {kind : SegmentKind} {text : Bytes}, kind.change = 0 →
      countFrom depth (text ++ more) = countFrom depth more →
      countFrom depth (text ++ more) = countFrom (depth + kind.change) more := by
    intro kind text hchange hcount
    rw [hcount, hchange, Int.add_zero]
  cases h with
  | token hlexeme _ hcomment =>
    rcases lexeme_cases hlexeme with ⟨c, rfl, hbracket⟩ | ⟨rfl, rfl⟩ | ⟨rfl, content, hcontent, rfl⟩ | ⟨hchange, -, hplain⟩
    · exact countFrom_bracket hbracket
    · have hhead : more.head? ≠ some '/'.toUInt8 := by
        intro hhead
        obtain ⟨tail, rfl⟩ := hmore
        refine hcomment (mark_iff.mpr ⟨rfl, ?_⟩)
        show (more ++ tail).head? = some '/'.toUInt8
        rw [List.head?_append, hhead]
        rfl
      exact hskip rfl (countFrom_slash hhead)
    · refine hskip rfl ?_
      rw [List.append_assoc]
      exact countFrom_string hcontent
    · exact hskip hchange (countFrom_plain hplain)
  | blank hblank =>
    refine hskip rfl (countFrom_plain (List.forall_mem_singleton.mpr ?_))
    rw [blank_iff] at hblank
    rw [mem_marks]
    omega
  | comment hbody hend =>
    have hend' : more = [] ∨ more.head? = some Text.newline := by
      obtain ⟨tail, rfl⟩ := hmore
      cases more with
      | nil => exact .inl rfl
      | cons c more => exact .inr (by simpa using hend)
    exact hskip rfl (countFrom_comment hbody hend')
  | unexpected hchar hquote hnone => exact hskip rfl (countFrom_plain (unexpected_plain hchar hquote hnone))
  | unterminated => exact absurd rfl hkind

/-! ## Part of a segment -/

section

variable {cut : Bytes}

theorem cut_singleton {b : UInt8} (h : cut <+: [b]) (hne : cut ≠ [b]) : cut = [] := by
  cases cut with
  | nil => rfl
  | cons c cut =>
    obtain ⟨rfl, hnil⟩ := List.cons_prefix_cons.mp h
    rw [List.prefix_nil.mp hnil] at hne
    exact absurd rfl hne

theorem countFrom_cut_plain (h : ∀ b ∈ text, b ∉ marks) (hcut : cut <+: text) : countFrom depth cut = depth := by
  have hbytes : ∀ b ∈ cut, b ∉ marks := fun b hb => h b (hcut.subset hb)
  have hcount : countFrom depth (cut ++ []) = countFrom depth [] := countFrom_plain hbytes
  rw [List.append_nil, countFrom_nil] at hcount
  exact hcount

theorem countFrom_cut_comment (h : Text.newline ∉ text) (hcut : cut <+: commentMark ++ text) :
    countFrom depth cut = depth := by
  rw [commentMark_eq] at hcut
  match cut with
  | [] => exact countFrom_nil
  | [c] =>
    obtain ⟨rfl, -⟩ := List.cons_prefix_cons.mp hcut
    rw [countFrom_slash (by simp), countFrom_nil]
  | c :: d :: cut =>
    obtain ⟨rfl, htail⟩ := List.cons_prefix_cons.mp hcut
    obtain ⟨rfl, hstarts⟩ := List.cons_prefix_cons.mp htail
    have hnewline : Text.newline ∉ cut := fun hmem => h (hstarts.subset hmem)
    have hcount : countFrom depth (commentMark ++ cut ++ []) = countFrom depth [] :=
      countFrom_comment hnewline (.inl rfl)
    rw [List.append_nil, countFrom_nil, commentMark_eq] at hcount
    exact hcount

/-- Up to any point inside a string, its quote counts as one open bracket. -/
theorem countFrom_cut_string (h : Text.quoteMark ∉ text) (hcut : cut <+: Text.quoteMark :: text) (hne : cut ≠ []) :
    countFrom depth cut = depth + 1 := by
  cases cut with
  | nil => exact absurd rfl hne
  | cons c cut =>
    obtain ⟨rfl, hstarts⟩ := List.cons_prefix_cons.mp hcut
    exact countFrom_unterminated fun hmem => h (hstarts.subset hmem)

/-- Before its end a segment does not count, but for the quote of a string. -/
theorem countFrom_cut {segment : Segment} (h : Fits segment rest) (hcut : cut <+: segment.text)
    (hne : cut ≠ segment.text) :
    countFrom depth cut = depth + if cut ≠ [] ∧ segment.kind.quoted then 1 else 0 := by
  by_cases hnil : cut = []
  · rw [hnil, countFrom_nil]
    simp
  have hskip : ∀ {kind : SegmentKind}, ¬ kind.quoted → countFrom depth cut = depth →
      countFrom depth cut = depth + if cut ≠ [] ∧ kind.quoted then 1 else 0 := by
    intro kind hkind hcount
    rw [if_neg fun h => hkind h.2, Int.add_zero, hcount]
  have hquote : ∀ {kind : SegmentKind}, kind.quoted → countFrom depth cut = depth + 1 →
      countFrom depth cut = depth + if cut ≠ [] ∧ kind.quoted then 1 else 0 := by
    intro kind hkind hcount
    rw [if_pos ⟨hnil, hkind⟩, hcount]
  cases h with
  | token hlexeme =>
    rcases lexeme_cases hlexeme with ⟨b, rfl, -⟩ | ⟨rfl, rfl⟩ | ⟨rfl, content, hcontent, rfl⟩ | ⟨-, hkind, htext⟩
    · exact absurd (cut_singleton hcut hne) hnil
    · exact absurd (cut_singleton hcut hne) hnil
    · rcases List.prefix_concat_iff.mp hcut with rfl | hstarts
      · exact absurd rfl hne
      · exact hquote rfl (countFrom_cut_string hcontent hstarts hnil)
    · exact hskip (by simp [SegmentKind.quoted_iff, hkind]) (countFrom_cut_plain htext hcut)
  | blank => exact absurd (cut_singleton hcut hne) hnil
  | comment hbody => exact hskip (by simp [SegmentKind.quoted_iff]) (countFrom_cut_comment hbody hcut)
  | unexpected hchar hspecial hnone =>
    exact hskip (by simp [SegmentKind.quoted_iff]) (countFrom_cut_plain (unexpected_plain hchar hspecial hnone) hcut)
  | unterminated hcontent => exact hquote rfl (countFrom_cut_string hcontent hcut hnil)

end

/-! ## Whole texts -/

/-- Brackets opened, less brackets closed. -/
def net : List TokenKind → Int
  | [] => 0
  | kind :: rest => kind.change + net rest

theorem net_append (kinds kinds' : List TokenKind) : net (kinds ++ kinds') = net kinds + net kinds' := by
  induction kinds with
  | nil => simp [net]
  | cons kind kinds ih => simp only [List.cons_append, net, ih, Int.add_assoc]

theorem net_eq_countP (tokens : List Token) :
    net (tokens.map Token.kind) =
      (tokens.countP (·.kind.opens) : Int) - (tokens.countP (·.kind.closes) : Int) := by
  induction tokens with
  | nil => rfl
  | cons t tokens ih =>
    have hone : ∀ kind : TokenKind, kind.opens = true → kind.closes = false := by
      intro kind
      cases kind <;> decide
    rw [List.map_cons, net, ih, List.countP_cons, List.countP_cons, TokenKind.change]
    split
    · rename_i hopens
      simp only [hone _ hopens, Bool.false_eq_true, if_false]
      omega
    · split <;> omega

def Unended (reports : List Report) : Prop := ∃ report ∈ reports, report.fault = .lexical .unterminatedString

instance (reports : List Report) : Decidable (Unended reports) :=
  inferInstanceAs (Decidable (∃ report ∈ reports, report.fault = .lexical .unterminatedString))

@[simp] theorem not_unended_nil : ¬ Unended [] := by
  simp [Unended]

@[simp] theorem unended_cons {report : Report} {reports : List Report} :
    Unended (report :: reports) ↔ report.fault = .lexical .unterminatedString ∨ Unended reports := by
  simp [Unended]

/-- The count follows the tokens, segment by segment. -/
theorem countFrom_scanned {seen rest : Bytes} {segments : List Segment} {tokens : List Token} {reports : List Report}
    (h : Scanned seen rest segments tokens reports) (depth : Int) :
    countFrom depth rest = depth + net (tokens.map Token.kind) + if Unended reports then 1 else 0 := by
  induction h generalizing depth with
  | done => simp [countFrom_nil, net]
  | token hfits _ ih =>
    rw [countFrom_segment hfits (by simp) List.prefix_rfl, ih, List.map_cons, net]
    simp only [SegmentKind.change]
    omega
  | blank hfits _ ih =>
    rw [countFrom_segment hfits (by simp) List.prefix_rfl, ih]
    simp only [SegmentKind.change, Int.add_zero]
  | comment hfits _ ih =>
    rw [countFrom_segment hfits (by simp) List.prefix_rfl, ih]
    simp only [SegmentKind.change, Int.add_zero]
  | unexpected hfits _ ih =>
    rw [countFrom_segment hfits (by simp) List.prefix_rfl, ih]
    simp [SegmentKind.change]
  | unterminated hfits =>
    cases hfits with
    | unterminated hcontent => simp [countFrom_unterminated hcontent, net]

theorem count_scan (source : Bytes) :
    count source = net ((scan source).tokens.map Token.kind) + if Unended (scan source).reports then 1 else 0 := by
  obtain ⟨segments, tokens, reports, h⟩ := exists_scanned [] source
  have hcount := countFrom_scanned h 0
  obtain ⟨-, rfl, rfl⟩ := h.agrees
  rw [Int.zero_add] at hcount
  exact hcount

/-- The count of brackets is that of the tokens, and a string without an end leaves one open. -/
theorem count_eq_tokens (source : Bytes) :
    count source =
      ((scan source).tokens.countP (·.kind.opens) : Int) - ((scan source).tokens.countP (·.kind.closes) : Int)
        + if Unended (scan source).reports then 1 else 0 := by
  rw [count_scan, net_eq_countP]

end Brackets

end Lox
