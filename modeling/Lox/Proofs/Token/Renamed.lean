/-
  Lox.Proofs.Token.Renamed — a text with other names in it has the same tokens but for the
  names. In the new text every identifier has been replaced and everything else has
  stayed. Two such texts agree up to the first identifier, and there both go on with a letter
  (`Like`). A letter never makes a number, an operator or a character longer, so each segment
  of the old text is one of the new (`Fits.renamed`), and the scan is the scan of
  the old text, renamed (`scan_source`).
-/

import Lox.Proofs.Lexical.Scan
import Lox.Proofs.Renaming

namespace Lox

open Lexical
open Segment (isAlpha isWordByte split)

/-! ## Texts that go on alike -/

/-- The texts agree up to where both have a letter. -/
inductive Like : Bytes → Bytes → Prop
  | nil : Like [] []
  | same {a b : Bytes} (c : UInt8) : Like a b → Like (c :: a) (c :: b)
  | letter {c d : UInt8} {a b : Bytes} : isAlpha c = true → isAlpha d = true → Like (c :: a) (d :: b)

namespace Like

variable {a b t : Bytes}

theorem append (h : Like a b) (p : Bytes) : Like (p ++ a) (p ++ b) := by
  induction p with
  | nil => exact h
  | cons c p ih => exact .same c ih

/-- What has no letter stands in both texts, if it stands in one. -/
theorem starts_of_starts (h : Like a b) (ht : ∀ c ∈ t, isAlpha c = false) (hp : t <+: b) : t <+: a := by
  induction h generalizing t with
  | nil => exact hp
  | same c _ ih =>
    cases t with
    | nil => exact List.nil_prefix
    | cons d t =>
      obtain ⟨rfl, htail⟩ := List.cons_prefix_cons.mp hp
      exact List.cons_prefix_cons.mpr ⟨rfl, ih (fun c hc => ht c (List.mem_cons_of_mem d hc)) htail⟩
  | letter _ hd =>
    cases t with
    | nil => exact List.nil_prefix
    | cons e t =>
      obtain ⟨rfl, -⟩ := List.cons_prefix_cons.mp hp
      rw [ht e List.mem_cons_self] at hd
      cases hd

theorem eq_nil (h : Like [] b) : b = [] := by
  cases h
  rfl

theorem head_eq {c : UInt8} (h : Like a b) (hc : isAlpha c = false) (hhead : a.head? = some c) : b.head? = some c := by
  cases h with
  | nil => cases hhead
  | same d _ => exact hhead
  | letter hd _ =>
    cases hhead
    rw [hc] at hd
    cases hd

/-- Both or none go on with a byte of a word. -/
theorem word_head {d : UInt8} (h : Like a b) (hd : isWordByte d = true) (hhead : b.head? = some d) :
    ∃ c, a.head? = some c ∧ isWordByte c = true := by
  cases h with
  | nil => cases hhead
  | same c _ =>
    cases hhead
    exact ⟨_, rfl, hd⟩
  | letter hc _ => exact ⟨_, rfl, by rw [isWordByte, hc, Bool.true_or]⟩

end Like

/-! ## Tokens at their longest -/

theorem digit_not_alpha {c : UInt8} (h : Text.isDigit c = true) : isAlpha c = false := by
  rw [← Bool.not_eq_true, isAlpha_iff]
  rw [isDigit_iff] at h
  omega

namespace Lexical

theorem NumberTail.not_alpha {tail : Bytes} (h : NumberTail tail) : ∀ c ∈ tail, isAlpha c = false := by
  rcases h with hdigits | ⟨digits, fraction, rfl, hdigits, -, hfraction⟩
  · exact fun c hc => digit_not_alpha (hdigits c hc)
  · intro c hc
    rcases List.mem_append.mp hc with hc | hc
    · exact digit_not_alpha (hdigits c hc)
    · rcases List.mem_cons.mp hc with rfl | hc
      · decide
      · exact digit_not_alpha (hfraction c hc)

/-- Numbers and operators have no letters in them. -/
theorem Shape.not_alpha {kind : TokenKind} {c : UInt8} {tail : Bytes} (h : Shape kind c tail) (hc : isAlpha c = false)
    (hquote : c ≠ Text.quoteMark) : ∀ b ∈ c :: tail, isAlpha b = false := by
  have htail : ∀ b ∈ tail, isAlpha b = false := by
    cases h with
    | word halpha => rw [hc] at halpha; cases halpha
    | number _ htail => exact htail.not_alpha
    | string => exact absurd rfl hquote
    | symbol => nofun
    | symbolEqual => exact List.forall_mem_singleton.mpr (by decide)
  exact List.forall_mem_cons.mpr ⟨hc, htail⟩

theorem commentMark_not_alpha : ∀ b ∈ commentMark, isAlpha b = false := by
  rw [commentMark_eq]
  exact List.forall_mem_cons.mpr ⟨by decide, List.forall_mem_singleton.mpr (by decide)⟩

/-- A token is the longest one at the front of a text. -/
def Longest (lexeme rest : Bytes) : Prop :=
  ∀ kind lexeme', Lexeme kind lexeme' → lexeme' <+: lexeme ++ rest → lexeme'.length ≤ lexeme.length

theorem Longest.word_ends {c : UInt8} {tail rest : Bytes} (h : Longest (c :: tail) rest) (hc : isAlpha c = true)
    (htail : ∀ b ∈ tail, isWordByte b = true) {d : UInt8} (hd : rest.head? = some d) : isWordByte d = false := by
  obtain ⟨more, rfl⟩ := List.head?_eq_some_iff.mp hd
  rw [← Bool.not_eq_true]
  intro hword
  have hlonger : Shape (TokenKind.ofWord (c :: (tail ++ [d]))) c (tail ++ [d]) := by
    refine .word hc fun b hb => ?_
    rcases List.mem_append.mp hb with hb | hb
    · exact htail b hb
    · rw [List.mem_singleton.mp hb, hword]
  have hle := h _ _ hlonger.lexeme ⟨more, by simp⟩
  simp only [List.length_cons, List.length_append, List.length_nil] at hle
  omega

theorem longest_word {c : UInt8} {tail rest : Bytes} (hc : isAlpha c = true) (htail : ∀ b ∈ tail, isWordByte b = true)
    (hrest : ∀ d, rest.head? = some d → isWordByte d = false) : Longest (c :: tail) rest := by
  intro kind lexeme hlexeme hstarts
  obtain ⟨c', tail', rfl, hshape⟩ := hlexeme.shape
  obtain ⟨rfl, htail'⟩ := List.cons_prefix_cons.mp hstarts
  have htake : (tail ++ rest).takeWhile isWordByte = tail := by
    rw [List.takeWhile_append_of_pos htail]
    cases rest with
    | nil => exact List.append_nil tail
    | cons d rest => rw [List.takeWhile_cons_of_neg (by simp [hrest d rfl]), List.append_nil]
  have hfront : tail' <+: tail ++ rest := htail'
  have hle := (prefix_takeWhile hfront (hshape.of_alpha hc).2).length_le
  rw [htake] at hle
  exact Nat.succ_le_succ hle

theorem longest_string {content : Bytes} (h : Text.quoteMark ∉ content) (rest : Bytes) :
    Longest (Text.quoteMark :: content ++ [Text.quoteMark]) rest := by
  intro kind lexeme hlexeme hstarts
  obtain ⟨c', tail', rfl, hshape⟩ := hlexeme.shape
  rw [List.cons_append, List.cons_append, List.append_assoc] at hstarts
  obtain ⟨rfl, more, hmore⟩ := List.cons_prefix_cons.mp hstarts
  obtain ⟨-, content', hcontent', rfl⟩ := hshape.of_quote rfl
  rw [List.append_assoc] at hmore
  have htake := (takeWhile_ne h (Text.quoteMark :: rest) (.inr rfl)).1
  have htake' := (takeWhile_ne hcontent' (Text.quoteMark :: more) (.inr rfl)).1
  have heq : content' = content := by
    rw [← htake, ← htake']
    exact congrArg _ hmore
  subst heq
  exact Nat.le_refl _

/-- Where the texts after it go on alike, a token is the longest in both or in none. -/
theorem Longest.like {kind : TokenKind} {lexeme rest rest' : Bytes} (h : Longest lexeme rest) (hlexeme : Lexeme kind lexeme)
    (hlike : Like rest rest') : Longest lexeme rest' := by
  obtain ⟨c, tail, rfl, hshape⟩ := hlexeme.shape
  by_cases hc : isAlpha c = true
  · have htail := (hshape.of_alpha hc).2
    refine longest_word hc htail fun d hd => ?_
    rw [← Bool.not_eq_true]
    intro hword
    obtain ⟨d', hd', hword'⟩ := hlike.word_head hword hd
    rw [h.word_ends hc htail hd'] at hword'
    cases hword'
  · rw [Bool.not_eq_true] at hc
    by_cases hquote : c = Text.quoteMark
    · obtain ⟨-, content, hcontent, rfl⟩ := hshape.of_quote hquote
      rw [hquote]
      exact longest_string hcontent rest'
    · intro kind' lexeme' hlexeme' hstarts
      obtain ⟨c', tail', rfl, hshape'⟩ := hlexeme'.shape
      obtain ⟨rfl, -⟩ := List.cons_prefix_cons.mp hstarts
      refine h kind' _ hlexeme' ?_
      exact (hlike.append (c' :: tail)).starts_of_starts (hshape'.not_alpha hc hquote) hstarts

theorem Character.like {char rest rest' : Bytes} (h : Character char rest) (hlike : Like rest rest') :
    Character char rest' := by
  cases h with
  | point c => exact .point c
  | @stray b _ hstray =>
    refine .stray fun c hc => hstray c ?_
    rcases (sequence_encode c).ascii_free with hone | hhigh
    · obtain ⟨d, heq⟩ := List.length_eq_one_iff.mp hone
      rw [heq] at hc ⊢
      obtain ⟨rfl, -⟩ := List.cons_prefix_cons.mp hc
      exact List.cons_prefix_cons.mpr ⟨rfl, List.nil_prefix⟩
    · refine (Like.same b hlike).starts_of_starts (fun d hd => ?_) hc
      have := hhigh d hd
      rw [← Bool.not_eq_true, isAlpha_iff]
      omega

/-- The first byte tells whether a token can start. -/
theorem Shape.alone {kind : TokenKind} {c : UInt8} {tail : Bytes} (h : Shape kind c tail) (hquote : c ≠ Text.quoteMark) :
    ∃ kind', Lexeme kind' [c] := by
  cases h with
  | word hc => exact ⟨_, (Shape.word hc (List.forall_mem_nil _)).lexeme⟩
  | number hc => exact ⟨_, (Shape.number hc (.inl (List.forall_mem_nil _))).lexeme⟩
  | string => exact absurd rfl hquote
  | symbol hc => exact ⟨_, (Shape.symbol hc).lexeme⟩
  | symbolEqual hc => exact ⟨_, (Shape.symbol hc).lexeme⟩

end Lexical

/-! ## Segments -/

section

variable (ρ : Renaming)

def Segment.rename (s : Segment) : Segment :=
  if s.kind = .token .identifier then { s with text := ρ.image s.text } else s

def Renaming.source (source : Bytes) : Bytes := ((split source).map (Segment.rename ρ)).flatMap Segment.text

theorem Segment.rename_identifier (w : Bytes) :
    Segment.rename ρ ⟨.token .identifier, w⟩ = ⟨.token .identifier, ρ.image w⟩ := if_pos rfl

theorem Segment.rename_other {s : Segment} (h : s.kind ≠ .token .identifier) : s.rename ρ = s := if_neg h

theorem identifier_word {w : Bytes} (h : Lexeme .identifier w) :
    ∃ c tail, w = c :: tail ∧ isAlpha c = true ∧ ∀ b ∈ tail, isWordByte b = true := by
  cases h with
  | fixed hs => cases hs
  | identifier hc hword _ => exact ⟨_, _, rfl, hc, hword⟩

theorem fits_renamed_identifier {w rest rest' : Bytes} (hw : Lexeme .identifier w) (hlongest : Longest w rest)
    (hlike : Like rest rest') : Fits ⟨.token .identifier, ρ.image w⟩ rest' := by
  have himage := ρ.identifier hw
  obtain ⟨c', tail', heq, hc', htail'⟩ := identifier_word himage
  obtain ⟨c, tail, rfl, hc, htail⟩ := identifier_word hw
  have hends : ∀ d, rest'.head? = some d → isWordByte d = false := by
    intro d hd
    rw [← Bool.not_eq_true]
    intro hword
    obtain ⟨e, he, hword'⟩ := hlike.word_head hword hd
    rw [hlongest.word_ends hc htail he] at hword'
    cases hword'
  refine .token himage ?_ fun hmark => ?_
  · rw [heq]
    exact longest_word hc' htail' hends
  · rw [heq] at hmark
    rw [(mark_iff.mp hmark).1] at hc'
    exact absurd hc' (by decide)

/-- A segment stays one under its new name. -/
theorem Lexical.Fits.renamed {s : Segment} {rest rest' : Bytes} (h : Fits s rest) (hlike : Like rest rest') :
    Fits (s.rename ρ) rest' := by
  cases h with
  | @token kind lexeme _ hlexeme hlongest hmark =>
    have hlongest : Longest lexeme rest := hlongest
    by_cases hkind : kind = .identifier
    · subst hkind
      rw [Segment.rename_identifier]
      exact fits_renamed_identifier ρ hlexeme hlongest hlike
    · rw [Segment.rename_other ρ fun heq => hkind (SegmentKind.token.inj heq)]
      refine .token hlexeme (hlongest.like hlexeme hlike) fun hmark' => hmark ?_
      exact (hlike.append lexeme).starts_of_starts commentMark_not_alpha hmark'
  | blank hc => exact .blank hc
  | comment hbody hrest =>
    refine .comment hbody ?_
    rcases hrest with rfl | hhead
    · exact .inl hlike.eq_nil
    · exact .inr (hlike.head_eq (by decide) hhead)
  | @unexpected char _ hchar hspecial hnone =>
    refine .unexpected (hchar.like hlike) hspecial fun kind lexeme hlexeme hstarts => ?_
    obtain ⟨c, tail, rfl, hshape⟩ := hlexeme.shape
    obtain ⟨more, hmore⟩ := hstarts
    have hc := (hchar.like hlike).head_mem hmore.symm
    cases char with
    | nil => cases hc
    | cons b char =>
      obtain ⟨rfl, -⟩ := List.cons_eq_cons.mp hmore
      obtain ⟨kind', halone⟩ := hshape.alone (hspecial c List.mem_cons_self).2
      exact hnone kind' [c] halone (List.cons_prefix_cons.mpr ⟨rfl, List.nil_prefix⟩)
  | unterminated hcontent =>
    rw [hlike.eq_nil]
    exact .unterminated hcontent

/-! ## Texts -/

theorem source_nil : ρ.source [] = [] := by
  rw [Renaming.source, split]
  rfl

theorem source_cons (c : UInt8) (rest : Bytes) :
    ρ.source (c :: rest) = ((Segment.front c rest).rename ρ).text ++ ρ.source (Segment.afterFront c rest) := by
  rw [Renaming.source, split, List.map_cons, List.flatMap_cons]
  rfl

theorem Lexical.Fits.like_text {s : Segment} {rest rest' : Bytes} (h : Fits s rest) (hlike : Like rest rest') :
    Like (s.text ++ rest) ((s.rename ρ).text ++ rest') := by
  by_cases hkind : s.kind = .token .identifier
  · cases h with
    | token hlexeme =>
      obtain rfl := SegmentKind.token.inj hkind
      obtain ⟨c, tail, rfl, hc, -⟩ := identifier_word hlexeme
      obtain ⟨c', tail', heq, hc', -⟩ := identifier_word (ρ.identifier hlexeme)
      rw [Segment.rename_identifier, heq]
      exact .letter hc hc'
    | _ => cases hkind
  · rw [Segment.rename_other ρ hkind]
    exact hlike.append s.text

theorem like_source (source : Bytes) : Like source (ρ.source source) := by
  fun_induction split source with
  | case1 =>
    rw [source_nil]
    exact .nil
  | case2 c rest ih =>
    have hlike := (front_fits c rest).like_text ρ ih
    rwa [Segment.front_text_append, ← source_cons] at hlike

/-- The segments of the new text are those of the old, renamed. -/
theorem split_source (source : Bytes) : split (ρ.source source) = (split source).map (Segment.rename ρ) := by
  fun_induction split source with
  | case1 => rw [source_nil, split, List.map_nil]
  | case2 c rest ih =>
    rw [source_cons, ((front_fits c rest).renamed ρ (like_source ρ _)).split_append, ih, List.map_cons]

def Scan.rename (s : Scan) : Scan := { s with tokens := s.tokens.map (Token.rename ρ) }

theorem newline_not_mem_word {c : UInt8} {tail : Bytes} (hc : isAlpha c = true) (htail : ∀ b ∈ tail, isWordByte b = true) :
    Text.newline ∉ c :: tail := by
  intro hmem
  rcases List.mem_cons.mp hmem with rfl | hmem
  · exact absurd hc (by decide)
  · exact absurd (htail _ hmem) (by decide)

theorem Lexical.Fits.newlines_rename {s : Segment} {rest : Bytes} (h : Fits s rest) : (s.rename ρ).newlines = s.newlines := by
  by_cases hkind : s.kind = .token .identifier
  · cases h with
    | token hlexeme =>
      obtain rfl := SegmentKind.token.inj hkind
      have hnone : ∀ {w : Bytes}, Lexeme .identifier w → w.count Text.newline = 0 := by
        intro w hw
        obtain ⟨c, tail, rfl, hc, htail⟩ := identifier_word hw
        exact List.count_eq_zero.mpr (newline_not_mem_word hc htail)
      rw [Segment.rename_identifier, Segment.newlines, Segment.newlines, hnone hlexeme, hnone (ρ.identifier hlexeme)]
    | _ => cases hkind
  · rw [Segment.rename_other ρ hkind]

theorem Lexical.Fits.tokenAt_rename {s : Segment} {rest : Bytes} (h : Fits s rest) (line : Nat) :
    Scan.tokenAt line (s.rename ρ) = (Scan.tokenAt line s).map (Token.rename ρ) := by
  cases h with
  | @token kind lexeme _ hlexeme =>
    by_cases hkind : kind = .identifier
    · subst hkind
      rw [Segment.rename_identifier]
      simp only [Scan.tokenAt, Option.map_some, Token.rename, ρ.apply_identifier hlexeme]
    · rw [Segment.rename_other ρ fun heq => hkind (SegmentKind.token.inj heq)]
      simp only [Scan.tokenAt, Option.map_some, Token.rename, ρ.apply_other (hlexeme.not_identifier hkind)]
  | _ => rfl

theorem Segment.kind_rename (s : Segment) : (s.rename ρ).kind = s.kind := by
  unfold Segment.rename
  split <;> rfl

theorem ofSegments_rename (line : Nat) {segments : List Segment} (h : ∀ s ∈ segments, ∃ rest, Fits s rest) :
    Scan.ofSegments line (segments.map (Segment.rename ρ)) = (Scan.ofSegments line segments).rename ρ := by
  induction segments generalizing line with
  | nil => rfl
  | cons s segments ih =>
    obtain ⟨rest, hfits⟩ := h s List.mem_cons_self
    have hih := ih (line + s.newlines) fun s' hs' => h s' (List.mem_cons_of_mem s hs')
    simp only [List.map_cons, Scan.ofSegments_cons, hfits.newlines_rename, hfits.tokenAt_rename, Segment.kind_rename, hih,
      Scan.rename, List.map_append, Option.toList_map]

/-- The new text has the same lines and lexical faults, and the same tokens but for the names. -/
theorem scan_source (source : Bytes) : scan (ρ.source source) = (scan source).rename ρ := by
  rw [scan, split_source]
  exact ofSegments_rename ρ 1 fun s hs => fits_of_mem_split hs

end

end Lox
