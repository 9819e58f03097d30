/-
  Lox.Proofs.Token.Append — the tokens of two texts with a newline between them. No segment
  but an unterminated string runs past a newline that follows the text, so the segments of
  the first text stay as they are (`split_append`). Segments lose nothing of the text
  (`split_flatMap_text`), so the lines of the second text move on by one and by the newlines
  of the first (`scan_append`).
-/

import Lox.Proofs.Renumber
import Lox.Token.Scan

namespace Lox

/-! ## Up to a byte that ends a run -/

section

variable {p : UInt8 → Bool} {stop : UInt8}

theorem takeWhile_append_stop (h : p stop = false) (s more : Bytes) :
    (s ++ stop :: more).takeWhile p = s.takeWhile p := by
  induction s with
  | nil => simp [h]
  | cons c s ih => simp only [List.cons_append, List.takeWhile_cons, ih]

theorem dropWhile_append_stop (h : p stop = false) (s more : Bytes) :
    (s ++ stop :: more).dropWhile p = s.dropWhile p ++ stop :: more := by
  induction s with
  | nil => simp [h]
  | cons c s ih =>
    simp only [List.cons_append, List.dropWhile_cons, ih]
    split <;> rfl

/-- Nothing changes behind the end of a run. -/
theorem takeWhile_append_of_ended {s : Bytes} (h : s.dropWhile p ≠ []) (more : Bytes) :
    (s ++ more).takeWhile p = s.takeWhile p := by
  induction s with
  | nil => exact absurd rfl h
  | cons c s ih =>
    rw [List.dropWhile_cons] at h
    simp only [List.cons_append, List.takeWhile_cons]
    split at h
    · rw [ih h]
    · rename_i hc
      rw [if_neg hc, if_neg hc]

end

namespace Segment

/-! ## Nothing is lost -/

theorem numberTail_prefix (rest : Bytes) : numberTail rest <+: rest := by
  unfold numberTail
  have hwhole := List.takeWhile_append_dropWhile (p := Text.isDigit) (l := rest)
  split
  · rename_i p d more hrest
    split
    · rw [hrest] at hwhole
      have hfraction : (d :: more).takeWhile Text.isDigit <+: d :: more := List.takeWhile_prefix _
      obtain ⟨t, ht⟩ := hfraction
      refine ⟨t, ?_⟩
      rw [List.append_assoc, List.cons_append, ht, hwhole]
    · exact List.takeWhile_prefix _
  · exact List.takeWhile_prefix _

theorem operator_prefix (kind : TokenKind) (rest : Bytes) : (operator kind rest).2 <+: rest := by
  unfold operator
  split
  · split
    · exact ⟨_, rfl⟩
    · exact List.nil_prefix
  · exact List.nil_prefix

/-- A segment is its first byte and some of what follows. -/
theorem front_text (c : UInt8) (rest : Bytes) : ∃ more, (front c rest).text = c :: more ∧ more <+: rest := by
  unfold front
  split
  · exact ⟨[], rfl, List.nil_prefix⟩
  · split
    · exact ⟨_, rfl, List.takeWhile_prefix _⟩
    · split
      · have hwhole := List.takeWhile_append_dropWhile (p := (· != Text.quoteMark)) (l := rest)
        split
        · rename_i q more hrest
          rw [hrest] at hwhole
          refine ⟨rest.takeWhile (· != Text.quoteMark) ++ [q], rfl, more, ?_⟩
          rw [List.append_assoc, List.singleton_append, hwhole]
        · exact ⟨_, rfl, List.takeWhile_prefix _⟩
      · split
        · exact ⟨_, rfl, numberTail_prefix rest⟩
        · split
          · exact ⟨_, rfl, List.takeWhile_prefix _⟩
          · split
            · exact ⟨_, rfl, operator_prefix _ rest⟩
            · have hfirst := Utf8.first_bytes_append c rest
              cases hbytes : (Utf8.first c rest).bytes with
              | nil =>
                have hlength := Utf8.afterFirst_length_le c rest
                rw [hbytes, List.nil_append] at hfirst
                rw [hfirst] at hlength
                exact absurd hlength (Nat.not_succ_le_self _)
              | cons b more =>
                rw [hbytes, List.cons_append] at hfirst
                obtain ⟨rfl, hrest⟩ := List.cons_eq_cons.mp hfirst
                exact ⟨more, rfl, _, hrest⟩

theorem front_text_append (c : UInt8) (rest : Bytes) : (front c rest).text ++ afterFront c rest = c :: rest := by
  obtain ⟨more, htext, t, rfl⟩ := front_text c rest
  simp [afterFront, htext]

/-- The segments of a text make up the text. -/
theorem split_flatMap_text (s : Bytes) : (split s).flatMap Segment.text = s := by
  fun_induction split s with
  | case1 => rfl
  | case2 c rest ih => rw [List.flatMap_cons, ih, front_text_append]

/-! ## A newline ends a segment -/

theorem numberTail_append (rest more : Bytes) : numberTail (rest ++ Text.newline :: more) = numberTail rest := by
  have hstop : Text.isDigit Text.newline = false := by decide
  unfold numberTail
  rw [takeWhile_append_stop hstop, dropWhile_append_stop hstop]
  match rest.dropWhile Text.isDigit with
  | [] =>
    cases more with
    | nil => rfl
    | cons d more => rfl
  | [p] =>
    have hpoint : (p = '.'.toUInt8 && Text.isDigit Text.newline) = false := by rw [hstop, Bool.and_false]
    show (if (p = '.'.toUInt8 && Text.isDigit Text.newline) = true then _ else _) = _
    rw [hpoint]
    rfl
  | p :: d :: rest' =>
    show (if (p = '.'.toUInt8 && Text.isDigit d) = true then _ ++ p :: (d :: rest' ++ Text.newline :: more).takeWhile _
      else _) = _
    rw [takeWhile_append_stop hstop]

theorem operator_append (kind : TokenKind) (rest more : Bytes) :
    operator kind (rest ++ Text.newline :: more) = operator kind rest := by
  unfold operator
  cases kind.withEqual? with
  | none => rfl
  | some longer =>
    cases rest with
    | nil => rfl
    | cons e rest => rfl

def Clean (s : Segment) : Prop := ∀ line, Scan.reportAt line s.kind = none

/-- A newline keeps what is behind it out of a segment that is clean. -/
theorem front_append {c : UInt8} {rest : Bytes} (h : (front c rest).Clean) (more : Bytes) :
    front c (rest ++ Text.newline :: more) = front c rest := by
  have hslash : ((rest ++ Text.newline :: more).head? == some '/'.toUInt8) = (rest.head? == some '/'.toUInt8) := by
    cases rest with
    | nil => rfl
    | cons e rest => rfl
  revert h
  unfold front
  rw [hslash, numberTail_append, takeWhile_append_stop (p := isWordByte) (by decide),
    takeWhile_append_stop (p := (· != Text.newline)) (by decide)]
  split
  · exact fun _ => rfl
  · split
    · exact fun _ => rfl
    · split
      · cases hrest : rest.dropWhile (· != Text.quoteMark) with
        | nil => exact fun h => nomatch h 0
        | cons q tail =>
          intro _
          have hended : rest.dropWhile (· != Text.quoteMark) ≠ [] := by rw [hrest]; exact List.cons_ne_nil q tail
          rw [takeWhile_append_of_ended hended, List.dropWhile_append, hrest]
          rfl
      · split
        · exact fun _ => rfl
        · split
          · exact fun _ => rfl
          · split
            · rw [operator_append]
              exact fun _ => rfl
            · exact fun h => nomatch h 0

theorem afterFront_append {c : UInt8} {rest : Bytes} (h : (front c rest).Clean) (more : Bytes) :
    afterFront c (rest ++ Text.newline :: more) = afterFront c rest ++ Text.newline :: more := by
  obtain ⟨taken, htext, hle⟩ := front_text c rest
  unfold afterFront
  rw [front_append h, htext, List.length_cons, Nat.add_sub_cancel, List.drop_append_of_le_length hle.length_le]

theorem split_newline (more : Bytes) : split (Text.newline :: more) = ⟨.blank, [Text.newline]⟩ :: split more := by
  rw [split]
  rfl

theorem split_append {s : Bytes} (h : ∀ segment ∈ split s, segment.Clean) (more : Bytes) :
    split (s ++ Text.newline :: more) = split s ++ ⟨.blank, [Text.newline]⟩ :: split more := by
  fun_induction split s with
  | case1 => exact split_newline more
  | case2 c rest ih =>
    obtain ⟨hfront, hrest⟩ := List.forall_mem_cons.mp h
    rw [List.cons_append, split, front_append hfront, afterFront_append hfront, ih hrest]
    rfl

end Segment

/-! ## Lines -/

namespace Scan

def renumber (f : Nat → Nat) (s : Scan) : Scan :=
  { s with tokens := s.tokens.map (Token.renumber f), reports := s.reports.map (Report.renumber f), endLine := f s.endLine }

/-- The counter is raised with every report. -/
theorem errors_ofSegments (line : Nat) (segments : List Segment) :
    (ofSegments line segments).errors = (ofSegments line segments).reports.length := by
  induction segments generalizing line with
  | nil => rfl
  | cons s rest ih =>
    rw [ofSegments_cons]
    dsimp only
    rw [ih, List.length_append, Nat.add_comm]

theorem clean_of_reports {line : Nat} {segments : List Segment} (h : (ofSegments line segments).reports = []) :
    ∀ segment ∈ segments, segment.Clean := by
  induction segments generalizing line with
  | nil => nofun
  | cons s rest ih =>
    rw [ofSegments_cons] at h
    obtain ⟨hs, hrest⟩ := List.append_eq_nil_iff.mp h
    refine List.forall_mem_cons.mpr ⟨fun line' => ?_, ih hrest⟩
    cases hkind : s.kind with
    | unexpected => rw [hkind] at hs; cases hs
    | unterminated => rw [hkind] at hs; cases hs
    | _ => rfl

theorem ofSegments_append (line : Nat) (first second : List Segment) :
    (ofSegments line (first ++ second)).tokens =
        (ofSegments line first).tokens ++ (ofSegments (ofSegments line first).endLine second).tokens ∧
      (ofSegments line (first ++ second)).reports =
        (ofSegments line first).reports ++ (ofSegments (ofSegments line first).endLine second).reports ∧
      (ofSegments line (first ++ second)).endLine = (ofSegments (ofSegments line first).endLine second).endLine := by
  induction first generalizing line with
  | nil => exact ⟨rfl, rfl, rfl⟩
  | cons s rest ih =>
    obtain ⟨htokens, hreports, hend⟩ := ih (line + s.newlines)
    simp only [List.cons_append, ofSegments_cons, htokens, hreports, hend, List.append_assoc, and_self]

theorem tokenAt_add (line k : Nat) (s : Segment) :
    tokenAt (line + k) s = (tokenAt line s).map (Token.renumber (· + k)) := by
  unfold tokenAt
  cases s.kind <;> rfl

theorem reportAt_add (line k : Nat) (kind : SegmentKind) :
    reportAt (line + k) kind = (reportAt line kind).map (Report.renumber (· + k)) := by
  cases kind <;> rfl

theorem ofSegments_add (line k : Nat) (segments : List Segment) :
    ofSegments (line + k) segments = (ofSegments line segments).renumber (· + k) := by
  induction segments generalizing line with
  | nil => rfl
  | cons s rest ih =>
    have hnext : line + k + s.newlines = line + s.newlines + k := Nat.add_right_comm line k s.newlines
    have htoken := congrArg Option.toList (tokenAt_add (line + s.newlines) k s)
    have hreport := congrArg Option.toList (reportAt_add (line + s.newlines) k s.kind)
    simp only [ofSegments_cons, renumber, hnext, ih, htoken, hreport, List.map_append, Option.toList_map, List.length_map]

theorem endLine_ofSegments (line : Nat) (segments : List Segment) :
    (ofSegments line segments).endLine = line + (segments.flatMap Segment.text).count Text.newline := by
  induction segments generalizing line with
  | nil => rfl
  | cons s rest ih =>
    rw [ofSegments_cons, List.flatMap_cons, List.count_append, ← Nat.add_assoc]
    exact ih (line + s.newlines)

end Scan

theorem endLine_scan (source : Bytes) : (scan source).endLine = 1 + source.count Text.newline := by
  unfold scan
  rw [Scan.endLine_ofSegments, Segment.split_flatMap_text]

/-- By how much the lines of a text move on when it follows another and a newline. -/
def linesBefore (first : Bytes) : Nat := 1 + first.count Text.newline

theorem scan_append {first : Bytes} (h : (scan first).reports = []) (second : Bytes) :
    scan (first ++ Text.newline :: second) =
      ⟨(scan first).tokens ++ ((scan second).renumber (· + linesBefore first)).tokens,
        ((scan second).renumber (· + linesBefore first)).reports,
        ((scan second).renumber (· + linesBefore first)).endLine,
        ((scan second).renumber (· + linesBefore first)).errors⟩ := by
  have hend := endLine_scan first
  unfold scan at h hend ⊢
  have hnewline : ∀ segments, Scan.ofSegments (linesBefore first) (⟨.blank, [Text.newline]⟩ :: segments) =
      (Scan.ofSegments 1 segments).renumber (· + linesBefore first) := by
    intro segments
    have hline : linesBefore first + (Segment.mk .blank [Text.newline]).newlines = 1 + linesBefore first :=
      Nat.add_comm _ _
    rw [← Scan.ofSegments_add, ← hline]
    rfl
  obtain ⟨htokens, hreports, hlast⟩ := Scan.ofSegments_append 1 (Segment.split first)
    (⟨.blank, [Text.newline]⟩ :: Segment.split second)
  rw [hend] at htokens hreports hlast
  rw [h, List.nil_append] at hreports
  rw [Segment.split_append (Scan.clean_of_reports h), ← hnewline]
  refine congr (congr (congr (congrArg Scan.mk htokens) hreports) hlast) ?_
  rw [Scan.errors_ofSegments, Scan.errors_ofSegments, hreports]
  rfl

end Lox
