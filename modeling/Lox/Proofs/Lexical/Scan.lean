/-
  Lox.Proofs.Lexical.Scan — scanning follows the lexical rules, on every text. Each text
  falls into fitting segments in exactly one way, which is the scanner's, and the scanner's
  tokens, reports and lines are those of the rules (`scan_splits`).
-/

import Lox.Proofs.Lexical.Front

namespace Lox

namespace Lexical

open Segment (split front afterFront)

/-! ## One way -/

theorem Fits.text_ne_nil {segment : Segment} {rest : Bytes} (h : Fits segment rest) : segment.text ≠ [] := by
  cases h with
  | token hlexeme =>
    obtain ⟨c, tail, rfl, -⟩ := hlexeme.shape
    exact List.cons_ne_nil c tail
  | blank => exact List.cons_ne_nil _ _
  | comment => rw [commentMark_eq]; exact List.cons_ne_nil _ _
  | unexpected hchar =>
    cases hchar with
    | point c => exact String.utf8EncodeChar_ne_nil
    | stray => exact List.cons_ne_nil _ _
  | unterminated => exact List.cons_ne_nil _ _

/-- Nothing follows a string without an end. -/
theorem Fits.rest_eq_nil {segment : Segment} {rest : Bytes} (h : Fits segment rest)
    (hkind : segment.kind = .unterminated) : rest = [] := by
  cases h with
  | unterminated => rfl
  | _ => cases hkind

/-- A segment that fits is the first one of the text. -/
theorem Fits.split_append {segment : Segment} {rest : Bytes} (h : Fits segment rest) :
    split (segment.text ++ rest) = segment :: split rest := by
  cases htext : segment.text ++ rest with
  | nil => exact absurd (List.append_eq_nil_iff.mp htext).1 h.text_ne_nil
  | cons c more =>
    have hfront := (fits_iff htext).mp h
    have happend := Segment.front_text_append c more
    rw [hfront, ← htext, List.append_cancel_left_eq] at happend
    rw [split, hfront, happend]

/-- What the scanner makes of a text after `seen`. -/
def Agrees (seen rest : Bytes) (segments : List Segment) (tokens : List Token) (reports : List Report) : Prop :=
  segments = split rest ∧
    tokens = (Scan.ofSegments (1 + seen.count Text.newline) (split rest)).tokens ∧
    reports = (Scan.ofSegments (1 + seen.count Text.newline) (split rest)).reports

/-- One more segment in front, with the token and the report that it calls for. -/
theorem Agrees.cons {seen rest : Bytes} {segment : Segment} {segments : List Segment} {tokens : List Token}
    {reports : List Report} (hfits : Fits segment rest)
    (h : Agrees (seen ++ segment.text) rest segments tokens reports) :
    Agrees seen (segment.text ++ rest) (segment :: segments)
      ((Scan.tokenAt (1 + (seen ++ segment.text).count Text.newline) segment).toList ++ tokens)
      ((Scan.reportAt (1 + (seen ++ segment.text).count Text.newline) segment.kind).toList ++ reports) := by
  obtain ⟨rfl, rfl, rfl⟩ := h
  have hline : 1 + seen.count Text.newline + segment.newlines = 1 + (seen ++ segment.text).count Text.newline := by
    rw [Segment.newlines, List.count_append, Nat.add_assoc]
  unfold Agrees
  rw [hfits.split_append]
  simp only [Scan.ofSegments_cons, hline, and_self]

theorem agrees_nil (seen : Bytes) : Agrees seen [] [] [] [] := by
  unfold Agrees
  rw [split]
  exact ⟨rfl, rfl, rfl⟩

/-- The rules leave the scanner no choice. -/
theorem Scanned.agrees {seen rest : Bytes} {segments : List Segment} {tokens : List Token} {reports : List Report}
    (h : Scanned seen rest segments tokens reports) : Agrees seen rest segments tokens reports := by
  induction h with
  | done => exact agrees_nil _
  | token hfits _ ih => exact ih.cons hfits
  | blank hfits _ ih => exact ih.cons hfits
  | comment hfits _ ih => exact ih.cons hfits
  | unexpected hfits _ ih => exact ih.cons hfits
  | @unterminated seen text hfits =>
    have h := (agrees_nil (seen ++ text)).cons hfits
    rw [List.append_nil] at h
    exact h

/-! ## There is one -/

/-- A fitting segment in front of a text that follows the rules. -/
theorem Scanned.cons {seen rest : Bytes} {segment : Segment} {segments : List Segment} {tokens : List Token}
    {reports : List Report} (hfits : Fits segment rest)
    (h : Scanned (seen ++ segment.text) rest segments tokens reports) :
    Scanned seen (segment.text ++ rest) (segment :: segments)
      ((Scan.tokenAt (1 + (seen ++ segment.text).count Text.newline) segment).toList ++ tokens)
      ((Scan.reportAt (1 + (seen ++ segment.text).count Text.newline) segment.kind).toList ++ reports) := by
  cases hfits with
  | token hlexeme hlongest hmark => exact .token (.token hlexeme hlongest hmark) h
  | blank hblank => exact .blank (.blank hblank) h
  | comment hbody hmore => exact .comment (.comment hbody hmore) h
  | unexpected hchar hspecial hnone => exact .unexpected (.unexpected hchar hspecial hnone) h
  | unterminated hcontent =>
    -- Nothing is left after it, and of nothing the rules make nothing.
    obtain ⟨rfl, rfl, rfl⟩ := h.agrees
    rw [split, List.append_nil]
    exact .unterminated (.unterminated hcontent)

/-- Every text can be scanned, by induction on its length. -/
theorem exists_scanned (seen rest : Bytes) : ∃ segments tokens reports, Scanned seen rest segments tokens reports := by
  fun_induction split rest generalizing seen with
  | case1 => exact ⟨[], [], [], .done⟩
  | case2 c rest ih =>
    obtain ⟨segments, tokens, reports, h⟩ := ih (seen ++ (front c rest).text)
    have hcons := h.cons (front_fits c rest)
    rw [Segment.front_text_append] at hcons
    exact ⟨_, _, _, hcons⟩

/-- The relation has the scanner's answer, and no other. -/
theorem scanned_iff {seen rest : Bytes} {segments : List Segment} {tokens : List Token} {reports : List Report} :
    Scanned seen rest segments tokens reports ↔ Agrees seen rest segments tokens reports := by
  constructor
  · exact Scanned.agrees
  · intro h
    obtain ⟨segments', tokens', reports', h'⟩ := exists_scanned seen rest
    obtain ⟨rfl, rfl, rfl⟩ := h'.agrees
    obtain ⟨rfl, rfl, rfl⟩ := h
    exact h'

/-! ## The whole text -/

theorem fits_of_mem_split {source : Bytes} {segment : Segment} (h : segment ∈ split source) :
    ∃ rest, Fits segment rest := by
  fun_induction split source with
  | case1 => exact absurd h List.not_mem_nil
  | case2 c rest ih =>
    rcases List.mem_cons.mp h with rfl | h
    · exact ⟨_, front_fits c rest⟩
    · exact ih h

theorem Scanned.lexeme {seen rest : Bytes} {segments : List Segment} {tokens : List Token} {reports : List Report}
    (h : Scanned seen rest segments tokens reports) : ∀ t ∈ tokens, Lexeme t.kind t.lexeme := by
  induction h with
  | done | unterminated => nofun
  | token hfits _ ih =>
    intro t ht
    rcases List.mem_cons.mp ht with rfl | ht
    · cases hfits with
      | token hlexeme => exact hlexeme
    · exact ih t ht
  | blank _ _ ih | comment _ _ ih | unexpected _ _ ih => exact ih

/-- The tokens of a text are tokens of the language. -/
theorem scan_lexeme (source : Bytes) : ∀ t ∈ (scan source).tokens, Lexeme t.kind t.lexeme := by
  obtain ⟨segments, tokens, reports, h⟩ := exists_scanned [] source
  obtain ⟨-, rfl, -⟩ := h.agrees
  exact h.lexeme

def secondField (line : Bytes) : Bytes := ((line.dropWhile (· != 32)).tail).takeWhile (· != 32)

theorem blank_not_mem_decimal (n : Nat) : 32 ∉ Text.decimal n := by
  have hdigit : ∀ n, 32 ≠ Text.digit n := by
    intro n h
    have hnat := congrArg UInt8.toNat h
    simp [Text.digit] at hnat
    omega
  fun_induction Text.decimal n with
  | case1 n _ => simpa using hdigit n
  | case2 n _ ih => simpa [ih] using hdigit n

theorem secondField_dumpWith (line : Nat) {name : Bytes} (hname : 32 ∉ name) (lexeme more : Bytes) :
    secondField (Token.dumpWith line name lexeme ++ more) = name := by
  have hline : Token.dumpWith line name lexeme ++ more =
      Text.decimal line ++ 32 :: (name ++ 32 :: (lexeme ++ more)) := by
    have hblank : utf8 " " = [32] := by decide
    simp [Token.dumpWith, hblank]
  unfold secondField
  rw [hline, (takeWhile_ne (blank_not_mem_decimal line) _ (.inr rfl)).2, List.tail_cons,
    (takeWhile_ne hname _ (.inr rfl)).1]

/-- No token is shown like the end of the text. -/
theorem dump_ne_endMark (token : Token) (line : Nat) : token.dump ≠ Token.endMark line := by
  have hnames : ∀ kind : TokenKind, 32 ∉ utf8 kind.name ∧ utf8 kind.name ≠ utf8 "EOF" := by
    intro kind
    cases kind <;> decide
  obtain ⟨hblank, hname⟩ := hnames token.kind
  have hmark := secondField_dumpWith line (show 32 ∉ utf8 "EOF" by decide) [] []
  rw [List.append_nil] at hmark
  obtain ⟨more, hdump⟩ : ∃ more, token.dump = Token.dumpWith token.line (utf8 token.kind.name) token.lexeme ++ more := by
    unfold Token.dump
    split
    · exact ⟨_, List.append_assoc _ _ _⟩
    · exact ⟨_, List.append_assoc _ _ _⟩
    · exact ⟨[], (List.append_nil _).symm⟩
  intro h
  have hfield := secondField_dumpWith token.line hblank token.lexeme more
  rw [← hdump, h, Token.endMark, hmark] at hfield
  exact hname hfield.symm

/-- Scanning follows the lexical rules, and nothing else does: no byte of the text is lost, an
unexpected character never takes an ASCII byte along, and the one end mark is on the last line. -/
theorem scan_splits (source : Bytes) :
    (∀ segments tokens reports, Scanned [] source segments tokens reports ↔
      segments = Segment.split source ∧ tokens = (scan source).tokens ∧ reports = (scan source).reports) ∧
    (Segment.split source).flatMap Segment.text = source ∧
    (∀ segment ∈ Segment.split source, segment.kind = .unexpected →
      segment.text.length = 1 ∨ ∀ b ∈ segment.text, 128 ≤ b.toNat) ∧
    (scan source).endLine = 1 + source.count Text.newline ∧
    (scan source).dump =
      (scan source).tokens.map Token.dump ++ [Token.endMark (1 + source.count Text.newline)] ∧
    ∀ line, Token.endMark line ∉ (scan source).tokens.map Token.dump := by
  refine ⟨fun _ _ _ => scanned_iff, Segment.split_flatMap_text source, ?_, endLine_scan source, ?_, ?_⟩
  · intro segment hmem hkind
    obtain ⟨rest, hfits⟩ := fits_of_mem_split hmem
    cases hfits with
    | unexpected hchar => exact hchar.ascii_free
    | _ => exact SegmentKind.noConfusion hkind
  · rw [Scan.dump, endLine_scan]
  · intro line hmem
    obtain ⟨token, -, hdump⟩ := List.mem_map.mp hmem
    exact dump_ne_endMark token line hdump

end Lexical

end Lox
