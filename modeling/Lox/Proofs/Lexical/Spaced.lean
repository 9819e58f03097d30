/-
  Lox.Proofs.Lexical.Spaced — tokens written with something between them. Blanks occur in no
  token but strings, which end with their quote; so where nothing or a blank follows, every
  token ends (`fits_of_ended`). A text of tokens with blanks between them, and comments behind
  the blanks, therefore has these tokens and no others, and no fault
  (`spaced_tokens_scan_back`).
-/

import Lox.Proofs.Lexical.Scan
import Lox.Proofs.Token.Renamed

namespace Lox

namespace Lexical

open Segment (isWordByte split)

/-! ## Where tokens end -/

def Ended (rest : Bytes) : Prop := ∀ c ∈ rest.head?, c ∈ blanks

theorem ended_nil : Ended [] := fun _ hc => absurd hc (Option.not_mem_none _)

theorem wordByte_not_blank {c : UInt8} (h : isWordByte c = true) : c ∉ blanks := by
  rw [blank_iff]
  rw [isWordByte, Bool.or_eq_true, isAlpha_iff, isDigit_iff] at h
  omega

theorem NumberTail.not_blank {tail : Bytes} (h : NumberTail tail) : ∀ c ∈ tail, c ∉ blanks := by
  have hdigit : ∀ c, Text.isDigit c = true → c ∉ blanks := by
    intro c hc
    rw [blank_iff]
    rw [isDigit_iff] at hc
    omega
  rcases h with hdigits | ⟨digits, fraction, rfl, hdigits, -, hfraction⟩
  · exact fun c hc => hdigit c (hdigits c hc)
  · intro c hc
    rcases List.mem_append.mp hc with hc | hc
    · exact hdigit c (hdigits c hc)
    · rcases List.mem_cons.mp hc with rfl | hc
      · decide
      · exact hdigit c (hfraction c hc)

/-- Only strings have blanks in them. -/
theorem Shape.blank_free {kind : TokenKind} {c : UInt8} {tail : Bytes} (h : Shape kind c tail)
    (hquote : c ≠ Text.quoteMark) : ∀ b ∈ c :: tail, b ∉ blanks := by
  refine List.forall_mem_cons.mpr ⟨h.not_blank, ?_⟩
  cases h with
  | word _ htail => exact fun b hb => wordByte_not_blank (htail b hb)
  | number _ htail => exact htail.not_blank
  | string => exact absurd rfl hquote
  | symbol => exact List.forall_mem_nil _
  | symbolEqual => exact List.forall_mem_singleton.mpr (by decide)

/-- Before a blank every lexeme is the longest one. -/
theorem longest_of_ended {kind : TokenKind} {lexeme rest : Bytes} (h : Lexeme kind lexeme) (hrest : Ended rest) :
    Longest lexeme rest := by
  obtain ⟨c, tail, rfl, hshape⟩ := h.shape
  by_cases hquote : c = Text.quoteMark
  · obtain ⟨-, content, hcontent, rfl⟩ := hshape.of_quote hquote
    rw [hquote]
    exact longest_string hcontent rest
  intro kind' lexeme' h' hstarts
  rw [← Nat.not_lt]
  intro hlonger
  cases rest with
  | nil =>
    rw [List.append_nil] at hstarts
    exact Nat.not_lt.mpr hstarts.length_le hlonger
  | cons d more =>
    -- A longer token would take the blank along.
    have hd : c :: tail ++ [d] <+: lexeme' := by
      refine List.prefix_of_prefix_length_le ⟨more, ?_⟩ hstarts ?_
      · rw [List.append_assoc, List.singleton_append]
      · rw [List.length_append, List.length_singleton]
        exact hlonger
    obtain ⟨c', tail', rfl, hshape'⟩ := h'.shape
    obtain ⟨rfl, -⟩ := List.cons_prefix_cons.mp hstarts
    have hmem : d ∈ c' :: tail' := hd.subset (List.mem_append_right _ (List.mem_singleton_self d))
    exact hshape'.blank_free hquote d hmem (hrest d rfl)

theorem no_mark_of_ended {kind : TokenKind} {lexeme rest : Bytes} (h : Lexeme kind lexeme) (hrest : Ended rest) :
    ¬ commentMark <+: lexeme ++ rest := by
  obtain ⟨c, tail, rfl, hshape⟩ := h.shape
  intro hmark
  obtain ⟨rfl, hhead⟩ := mark_iff.mp hmark
  have hslash : TokenKind.symbols.lookup '/'.toUInt8 = some .slash := by decide
  rcases hshape.of_symbol hslash with ⟨-, rfl⟩ | ⟨hlonger, -⟩
  · exact absurd (hrest _ hhead) (by decide)
  · cases hlonger

/-- Where nothing or a blank follows, a token ends. -/
theorem fits_of_ended {kind : TokenKind} {lexeme rest : Bytes} (h : Lexeme kind lexeme) (hrest : Ended rest) :
    Fits ⟨.token kind, lexeme⟩ rest :=
  .token h (longest_of_ended h hrest) (no_mark_of_ended h hrest)

/-! ## What a text yields -/

/-- Scanning the text, from any line on, finds no fault and these tokens. -/
def Yields (text : Bytes) (found : List (TokenKind × Bytes)) : Prop :=
  ∀ line, (Scan.ofSegments line (split text)).reports = [] ∧
    (Scan.ofSegments line (split text)).tokens.map (fun t => (t.kind, t.lexeme)) = found

theorem yields_nil : Yields [] [] := by
  intro line
  rw [split]
  exact ⟨rfl, rfl⟩

section

variable {rest : Bytes} {found : List (TokenKind × Bytes)}

theorem Yields.token {kind : TokenKind} {lexeme : Bytes} (h : Yields rest found) (hfits : Fits ⟨.token kind, lexeme⟩ rest) :
    Yields (lexeme ++ rest) ((kind, lexeme) :: found) := by
  intro line
  obtain ⟨hreports, hfound⟩ := h (line + Segment.newlines ⟨.token kind, lexeme⟩)
  rw [hfits.split_append]
  exact ⟨hreports, congrArg ((kind, lexeme) :: ·) hfound⟩

theorem Yields.blank {c : UInt8} (h : Yields rest found) (hc : c ∈ blanks) : Yields (c :: rest) found := by
  intro line
  have hsplit : split (c :: rest) = ⟨.blank, [c]⟩ :: split rest := (Fits.blank hc).split_append
  rw [hsplit]
  exact h _

theorem Yields.comment {body : Bytes} (h : Yields rest found) (hbody : Text.newline ∉ body) :
    Yields (commentMark ++ body ++ Text.newline :: rest) found := by
  intro line
  have hsplit := (Fits.comment hbody (.inr rfl) : Fits ⟨.comment, commentMark ++ body⟩ (Text.newline :: rest)).split_append
  rw [hsplit]
  exact h.blank (by decide) _

end

/-! ## Separators -/

/-- Blanks, and comments with the newline at their end, in any order and number. -/
inductive Gap : Bytes → Prop
  | nil : Gap []
  | blank {c : UInt8} {rest : Bytes} : c ∈ blanks → Gap rest → Gap (c :: rest)
  | comment {body rest : Bytes} :
      Text.newline ∉ body → Gap rest → Gap (commentMark ++ body ++ Text.newline :: rest)

inductive Separator : Bytes → Prop
  | mk {c : UInt8} {rest : Bytes} : c ∈ blanks → Gap rest → Separator (c :: rest)

/-- A gap adds no tokens. -/
theorem Gap.yields {gap rest : Bytes} {found : List (TokenKind × Bytes)} (hgap : Gap gap) (h : Yields rest found) :
    Yields (gap ++ rest) found := by
  induction hgap with
  | nil => exact h
  | blank hc _ ih => exact ih.blank hc
  | @comment body gap hbody _ ih =>
    rw [List.append_assoc]
    exact ih.comment hbody

theorem Separator.gap {text : Bytes} (h : Separator text) : Gap text := by
  cases h with
  | mk hc hgap => exact .blank hc hgap

theorem Separator.ended {text : Bytes} (h : Separator text) (rest : Bytes) : Ended (text ++ rest) := by
  cases h with
  | mk hc _ =>
    intro d hd
    cases hd
    exact hc

/-- The lexemes of the tokens, one after the other, with separators between them. -/
inductive Spaced : List Token → Bytes → Prop
  | nil : Spaced [] []
  | one (t : Token) : Spaced [t] t.lexeme
  | more (t : Token) {next : Token} {tokens : List Token} {separator text : Bytes} :
      Separator separator → Spaced (next :: tokens) text → Spaced (t :: next :: tokens) (t.lexeme ++ (separator ++ text))

/-- Separated lexemes are scanned as they are. -/
theorem Spaced.yields {tokens : List Token} {text : Bytes} (h : Spaced tokens text)
    (htokens : ∀ t ∈ tokens, Lexeme t.kind t.lexeme) : Yields text (tokens.map fun t => (t.kind, t.lexeme)) := by
  induction h with
  | nil => exact yields_nil
  | one t =>
    have hyields := yields_nil.token (fits_of_ended (htokens t List.mem_cons_self) ended_nil)
    rwa [List.append_nil] at hyields
  | @more t next tokens separator text hseparator _ ih =>
    obtain ⟨ht, htokens⟩ := List.forall_mem_cons.mp htokens
    exact (hseparator.gap.yields (ih htokens)).token (fits_of_ended ht (hseparator.ended text))

end Lexical

open Lexical

/-- Tokens that scanning can find, written one after the other with separators between them,
are found again, with nothing else and without a fault. -/
theorem spaced_tokens_scan_back {tokens : List Token} (htokens : ∀ t ∈ tokens, ∃ source, t ∈ (scan source).tokens)
    {text : Bytes} (h : Spaced tokens text) :
    (scan text).reports = [] ∧
    (scan text).tokens.map (fun t => (t.kind, t.lexeme, t.literal?)) =
      tokens.map (fun t => (t.kind, t.lexeme, t.literal?)) ∧
    (scan text).dump = (scan text).tokens.map Token.dump ++ [Token.endMark (1 + text.count Text.newline)] := by
  have hlexemes : ∀ t ∈ tokens, Lexeme t.kind t.lexeme := by
    intro t ht
    obtain ⟨source, hsource⟩ := htokens t ht
    exact scan_lexeme source t hsource
  obtain ⟨hreports, hfound⟩ := h.yields hlexemes 1
  refine ⟨hreports, ?_, by rw [Scan.dump, endLine_scan]⟩
  -- The value of a token is in its kind and its lexeme.
  have hvalues : ∀ ts : List Token, ts.map (fun t => (t.kind, t.lexeme, t.literal?)) =
      (ts.map fun t => (t.kind, t.lexeme)).map fun p => (p.1, p.2, (Token.mk p.1 p.2 0).literal?) := by
    intro ts
    rw [List.map_map]
    rfl
  rw [hvalues, hvalues, scan, hfound]

/-- Tokens that would be others without something between them. -/
def slashesAndPoint : List Token :=
  [⟨.slash, utf8 "/", 1⟩, ⟨.slash, utf8 "/", 1⟩, ⟨.number, utf8 "1", 1⟩, ⟨.dot, utf8 ".", 1⟩,
    ⟨.number, utf8 "2", 1⟩, ⟨.string, utf8 "\"a\n//\"", 2⟩]

theorem spaced_tokens_scan_back_slashes :
    let text := utf8 "/ // =\n/\t1 . 2\n\n\"a\n//\""
    Spaced slashesAndPoint text ∧ (scan text).reports = [] ∧
      (scan text).tokens.map (fun t => (t.kind, t.lexeme, t.literal?)) =
        slashesAndPoint.map (fun t => (t.kind, t.lexeme, t.literal?)) := by
  intro text
  have hfound : ∀ t ∈ slashesAndPoint, ∃ source, t ∈ (scan source).tokens := by
    have hall : ∀ t ∈ slashesAndPoint, t ∈ (scan (utf8 "/ / 1 . 2 \"a\n//\"")).tokens := by decide +kernel
    exact fun t ht => ⟨_, hall t ht⟩
  have hspaced : Spaced slashesAndPoint text := by
    have htext : text = utf8 "/" ++ ((32 :: (commentMark ++ utf8 " =" ++ Text.newline :: [])) ++
        (utf8 "/" ++ ([9] ++ (utf8 "1" ++ ([32] ++ (utf8 "." ++ ([32] ++ (utf8 "2" ++
          ([Text.newline, Text.newline] ++ utf8 "\"a\n//\""))))))))) := by decide
    rw [htext]
    refine .more _ (.mk (by decide) (.comment (by decide) .nil)) (.more _ (.mk (by decide) .nil) ?_)
    refine .more _ (.mk (by decide) .nil) (.more _ (.mk (by decide) .nil) ?_)
    exact .more _ (.mk (by decide) (.blank (by decide) .nil)) (.one _)
  obtain ⟨hreports, htokens, -⟩ := spaced_tokens_scan_back hfound hspaced
  exact ⟨hspaced, hreports, htokens⟩

end Lox
