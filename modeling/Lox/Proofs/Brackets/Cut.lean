/-
  Lox.Proofs.Brackets.Cut — where a valid program may be cut. Up to any point the count of
  brackets is that of the whole segments before it, and one more inside a string
  (`count_cut`). The tokens of a valid program are balanced, so the count is never negative,
  is zero at the end, and is positive exactly inside strings and between brackets and their
  partners (`count_pos_iff`). The shell goes by the count: it submits a valid program as soon as it
  is complete, and never one that is cut inside (`valid_program_cut`).
-/

import Lox.Proofs.Grammar.Acceptance
import Lox.Proofs.Grammar.Nesting
import Lox.Shell

namespace Lox

def SegmentKind.token? : SegmentKind → Option TokenKind
  | .token kind => some kind
  | _ => none

theorem SegmentKind.eq_token {kind : SegmentKind} {found : TokenKind} (h : kind.token? = some found) :
    kind = .token found := by
  cases kind with
  | token kind => cases h; rfl
  | _ => cases h

namespace Brackets

open Grammar Lexical
open Segment (split)

def textOf (segments : List Segment) : Bytes := segments.flatMap Segment.text

def kindsOf (segments : List Segment) : List TokenKind := segments.filterMap (·.kind.token?)

theorem textOf_append (first second : List Segment) : textOf (first ++ second) = textOf first ++ textOf second :=
  List.flatMap_append

theorem kindsOf_append (first second : List Segment) : kindsOf (first ++ second) = kindsOf first ++ kindsOf second :=
  List.filterMap_append

theorem kindsOf_tokens (line : Nat) (segments : List Segment) :
    (Scan.ofSegments line segments).tokens.map Token.kind = kindsOf segments := by
  induction segments generalizing line with
  | nil => rfl
  | cons s segments ih =>
    rw [Scan.ofSegments_cons, List.map_append, ih]
    cases hkind : s.kind <;> simp [Scan.tokenAt, kindsOf, SegmentKind.token?, hkind]

theorem net_kindsOf_cons (s : Segment) (segments : List Segment) :
    net (kindsOf (s :: segments)) = s.kind.change + net (kindsOf segments) := by
  cases hkind : s.kind <;> simp [kindsOf, SegmentKind.token?, SegmentKind.change, net, hkind]

/-- A token among the kinds is a segment. -/
theorem exists_segment {segments : List Segment} {front back : List TokenKind} {kind : TokenKind}
    (h : kindsOf segments = front ++ kind :: back) :
    ∃ before text after, segments = before ++ ⟨.token kind, text⟩ :: after ∧ kindsOf before = front ∧
      kindsOf after = back := by
  obtain ⟨before, rest, rfl, rfl, hrest⟩ := List.filterMap_eq_append_iff.mp h
  obtain ⟨skipped, s, after, rfl, hskipped, hs, rfl⟩ := List.filterMap_eq_cons_iff.mp hrest
  have hnone : kindsOf skipped = [] := List.filterMap_eq_nil_iff.mpr hskipped
  refine ⟨before ++ skipped, s.text, after, ?_, ?_, rfl⟩
  · rw [← SegmentKind.eq_token hs, List.append_assoc]
  · rw [kindsOf_append, hnone, List.append_nil]
    rfl

/-! ## Cutting a text -/

/-- A part of a text ends inside one of its segments, or is the text. -/
theorem cut_of_prefix {segments : List Segment} {part : Bytes} (h : part <+: textOf segments) :
    part = textOf segments ∨ ∃ before segment after cut, segments = before ++ segment :: after ∧
      part = textOf before ++ cut ∧ cut <+: segment.text ∧ cut ≠ segment.text := by
  induction segments generalizing part with
  | nil => exact .inl (List.prefix_nil.mp h)
  | cons s segments ih =>
    by_cases hs : s.text <+: part
    · obtain ⟨part, rfl⟩ := hs
      rcases ih ((List.prefix_append_right_inj s.text).mp h) with rfl | ⟨before, segment, after, cut, rfl, rfl, hcut, hne⟩
      · exact .inl rfl
      · exact .inr ⟨s :: before, segment, after, cut, rfl, (List.append_assoc _ _ _).symm, hcut, hne⟩
    · rcases List.prefix_or_prefix_of_prefix h (List.prefix_append s.text (textOf segments)) with hpart | hpart
      · exact .inr ⟨[], s, segments, part, rfl, rfl, hpart, fun heq => hs (heq ▸ List.prefix_rfl)⟩
      · exact absurd hpart hs

/-- The first segment fits what the others leave, and the rest is split in the same way by itself.
-/
theorem fits_of_split {source : Bytes} {segment : Segment} {segments : List Segment}
    (h : split source = segment :: segments) : Fits segment (textOf segments) ∧ split (textOf segments) = segments := by
  cases source with
  | nil => rw [split] at h; cases h
  | cons c rest =>
    rw [split] at h
    cases h
    have htext : textOf (split (Segment.afterFront c rest)) = Segment.afterFront c rest :=
      Segment.split_flatMap_text _
    rw [htext]
    exact ⟨front_fits c rest, rfl⟩

/-- Whole segments count for their tokens. -/
theorem countFrom_before {source : Bytes} {before after : List Segment} (h : split source = before ++ after)
    (hafter : after ≠ []) {cut : Bytes} (hcut : cut <+: textOf after) (depth : Int) :
    countFrom depth (textOf before ++ cut) = countFrom (depth + net (kindsOf before)) cut := by
  induction before generalizing source depth with
  | nil => simp [textOf, kindsOf, net]
  | cons s before ih =>
    obtain ⟨hfits, hsplit⟩ := fits_of_split h
    have hkind : s.kind ≠ .unterminated := by
      -- nothing would be left for the segments behind it
      intro hkind
      have hrest := hfits.rest_eq_nil hkind
      rw [hrest, split] at hsplit
      exact hafter (List.append_eq_nil_iff.mp hsplit.symm).2
    have hmore : textOf before ++ cut <+: textOf (before ++ after) := by
      rw [textOf_append]
      exact (List.prefix_append_right_inj _).mpr hcut
    show countFrom depth (s.text ++ textOf before ++ cut) = _
    rw [List.append_assoc, countFrom_segment hfits hkind hmore, ih hsplit, net_kindsOf_cons, Int.add_assoc]

/-- Up to a point in a segment, the segments before it count, and one more inside of quotes. -/
theorem count_cut {source : Bytes} {before after : List Segment} {segment : Segment} {cut : Bytes}
    (h : split source = before ++ segment :: after) (hcut : cut <+: segment.text) (hne : cut ≠ segment.text) :
    count (textOf before ++ cut) = net (kindsOf before) + if cut ≠ [] ∧ segment.kind.quoted then 1 else 0 := by
  have hmem : segment ∈ split source := by simp [h]
  obtain ⟨rest, hfits⟩ := fits_of_mem_split hmem
  have hpart : cut <+: textOf (segment :: after) := hcut.trans (List.prefix_append _ _)
  unfold count
  rw [countFrom_before h (List.cons_ne_nil _ _) hpart, countFrom_cut hfits hcut hne, Int.zero_add]

/-- Nothing is closed within balanced segments that was open before them. -/
theorem count_within {source : Bytes} {before inside after : List Segment} {part : Bytes}
    (h : split source = before ++ (inside ++ after)) (hafter : after ≠ []) (hinside : Balanced (kindsOf inside))
    (hpart : part <+: textOf inside) : net (kindsOf before) ≤ count (textOf before ++ part) := by
  rcases cut_of_prefix hpart with rfl | ⟨inside', segment, rest, cut, rfl, rfl, hcut, hne⟩
  · rw [← List.append_assoc] at h
    have hcount := countFrom_before h hafter List.nil_prefix 0
    rw [List.append_nil, textOf_append, countFrom_nil, kindsOf_append, net_append, hinside.net_eq_zero] at hcount
    unfold count
    omega
  · have hsplit : split source = before ++ inside' ++ segment :: (rest ++ after) := by simp [h]
    have hcount := count_cut hsplit hcut hne
    rw [kindsOf_append] at hinside
    have hnonneg := (hinside.cut rfl).1
    rw [textOf_append, kindsOf_append, net_append, List.append_assoc] at hcount
    rw [hcount]
    split <;> omega

/-! ## Valid programs -/

/-- A text is cut inside a string, or between a bracket and its partner. -/
inductive CutInside (source : Bytes) : Bytes → Prop
  | string {before after : List Segment} {read unread : Bytes} :
      split source = before ++ ⟨.token .string, read ++ unread⟩ :: after → read ≠ [] → unread ≠ [] →
      CutInside source (textOf before ++ read)
  | brackets {before inside after : List Segment} {opening closing : TokenKind} {first last read unread : Bytes} :
      split source = before ++ ⟨.token opening, first⟩ :: (inside ++ ⟨.token closing, last⟩ :: after) →
      Pair opening closing → Balanced (kindsOf inside) → textOf inside = read ++ unread →
      CutInside source (textOf before ++ (first ++ read))

variable {source : Bytes}

/-- The brackets of a valid program are nested. -/
theorem balanced_of_valid (h : (analyze source).reports = []) : Balanced (kindsOf (split source)) := by
  have hbalanced := (analyze_program h).1.balanced
  rw [scan, kindsOf_tokens] at hbalanced
  exact hbalanced

theorem count_of_valid (h : (analyze source).reports = []) : count source = 0 := by
  obtain ⟨hscan, -⟩ := analyze_clean h
  have hnet := (balanced_of_valid h).net_eq_zero
  rw [count_scan, hscan, if_neg not_unended_nil, scan, kindsOf_tokens, hnet]
  rfl

theorem string_of_valid (h : (analyze source).reports = []) {segment : Segment} (hmem : segment ∈ split source)
    (hquoted : segment.kind.quoted = true) : segment.kind = .token .string := by
  obtain ⟨hscan, -⟩ := analyze_clean h
  rcases SegmentKind.quoted_iff.mp hquoted with hkind | hkind
  · exact hkind
  · have hclean := Scan.clean_of_reports hscan segment hmem 1
    rw [hkind] at hclean
    cases hclean

/-- No part of a valid program closes more than it opens. -/
theorem net_before_nonneg (h : (analyze source).reports = []) {before after : List Segment}
    (hsplit : split source = before ++ after) : 0 ≤ net (kindsOf before) := by
  have hbalanced := balanced_of_valid h
  rw [hsplit, kindsOf_append] at hbalanced
  exact (hbalanced.cut rfl).1

/-- Inside a string or a pair of brackets, something is open. -/
theorem CutInside.count_pos (h : (analyze source).reports = []) {part : Bytes} (hcut : CutInside source part) :
    1 ≤ count part := by
  cases hcut with
  | @string before after read unread hsplit hread hunread =>
    have hnonneg := net_before_nonneg h hsplit
    have hne : read ≠ read ++ unread := by simpa using hunread
    rw [count_cut hsplit (List.prefix_append read unread) hne, if_pos ⟨hread, rfl⟩]
    omega
  | @brackets before inside after opening closing first last read unread hsplit hpair hinside htext =>
    have hnonneg := net_before_nonneg h hsplit
    rw [List.append_cons] at hsplit
    have hwithin := count_within hsplit (List.cons_ne_nil _ _) hinside (htext ▸ List.prefix_append read unread)
    have hopening : net (kindsOf [⟨.token opening, first⟩]) = 1 := by
      rw [net_kindsOf_cons]
      exact (Int.add_zero _).trans hpair.change.1
    have htext' : textOf [⟨.token opening, first⟩] = first := by simp [textOf]
    rw [kindsOf_append, net_append, hopening, textOf_append, htext', List.append_assoc] at hwithin
    omega

/-- A bracket is not cut into parts. -/
theorem cut_of_closing {before after : List Segment} {opening closing : TokenKind} {text cut : Bytes}
    (h : split source = before ++ ⟨.token closing, text⟩ :: after) (hpair : Pair opening closing) (hcut : cut <+: text)
    (hne : cut ≠ text) : cut = [] := by
  have hmem : ⟨.token closing, text⟩ ∈ split source := by simp [h]
  obtain ⟨rest, hfits⟩ := fits_of_mem_split hmem
  cases hfits with
  | token hlexeme =>
    have hchange := hpair.change.2
    rcases lexeme_cases hlexeme with ⟨c, rfl, -⟩ | ⟨rfl, -⟩ | ⟨rfl, -⟩ | ⟨hzero, -⟩
    · exact cut_singleton hcut hne
    · cases hpair
    · cases hpair
    · omega

theorem cutInside_of_quoted (h : (analyze source).reports = []) {before after : List Segment} {segment : Segment}
    {cut : Bytes} (hsplit : split source = before ++ segment :: after) (hcut : cut <+: segment.text)
    (hne : cut ≠ segment.text) (hread : cut ≠ []) (hquoted : segment.kind.quoted = true) :
    CutInside source (textOf before ++ cut) := by
  have hkind := string_of_valid h (by simp [hsplit]) hquoted
  obtain ⟨unread, htext⟩ := hcut
  have hsegment : segment = ⟨.token .string, cut ++ unread⟩ := by rw [← hkind, htext]
  rw [hsegment] at hsplit
  refine .string hsplit hread ?_
  intro hnil
  rw [hnil, List.append_nil] at htext
  exact hne htext

/-- A bracket that is open at the cut has its partner behind the cut. -/
theorem cutInside_of_open (h : (analyze source).reports = []) {before after : List Segment} {segment : Segment}
    {cut : Bytes} (hsplit : split source = before ++ segment :: after) (hcut : cut <+: segment.text)
    (hne : cut ≠ segment.text) (hopen : 1 ≤ net (kindsOf before)) : CutInside source (textOf before ++ cut) := by
  have hbalanced := balanced_of_valid h
  rw [hsplit, kindsOf_append] at hbalanced
  obtain ⟨_, opening, _, _, closing, _, hfront, hback, hpair, hinside⟩ := (hbalanced.cut rfl).2 hopen
  obtain ⟨outer, first, inner, rfl, -, rfl⟩ := exists_segment hfront
  obtain ⟨inner', last, outer', hrest, rfl, -⟩ := exists_segment hback
  -- what is read of the next segment is inside too, since that segment is not the partner
  have hread : cut <+: textOf inner' := by
    cases inner' with
    | nil =>
      obtain ⟨rfl, rfl⟩ := List.cons_eq_cons.mp hrest
      rw [cut_of_closing hsplit hpair hcut hne]
      exact List.nil_prefix
    | cons s inner' =>
      obtain ⟨rfl, -⟩ := List.cons_eq_cons.mp hrest
      exact hcut.trans (List.prefix_append _ _)
  obtain ⟨unread, hunread⟩ := hread
  rw [hrest] at hsplit
  rw [← kindsOf_append] at hinside
  have hsplit' : split source =
      outer ++ ⟨.token opening, first⟩ :: (inner ++ inner' ++ ⟨.token closing, last⟩ :: outer') := by simp [hsplit]
  have htext : textOf (inner ++ inner') = (textOf inner ++ cut) ++ unread := by
    rw [textOf_append, ← hunread, List.append_assoc]
  have hinside := CutInside.brackets hsplit' hpair hinside htext
  rw [textOf_append, List.append_assoc]
  simpa [textOf] using hinside

theorem count_nonneg (h : (analyze source).reports = []) {part : Bytes} (hpart : part <+: source) : 0 ≤ count part := by
  rw [← Segment.split_flatMap_text source] at hpart
  rcases cut_of_prefix hpart with rfl | ⟨before, segment, after, cut, hsplit, rfl, hcut, hne⟩
  · exact Int.le_of_eq (by rw [textOf, Segment.split_flatMap_text, count_of_valid h])
  · have hnonneg := net_before_nonneg h hsplit
    rw [count_cut hsplit hcut hne]
    split <;> omega

/-- Something is open exactly where the program is cut inside. -/
theorem count_pos_iff (h : (analyze source).reports = []) {part : Bytes} (hpart : part <+: source) :
    1 ≤ count part ↔ CutInside source part := by
  constructor
  · intro hpos
    rw [← Segment.split_flatMap_text source] at hpart
    rcases cut_of_prefix hpart with rfl | ⟨before, segment, after, cut, hsplit, rfl, hcut, hne⟩
    · rw [textOf, Segment.split_flatMap_text, count_of_valid h] at hpos
      exact absurd hpos (by decide)
    · rw [count_cut hsplit hcut hne] at hpos
      split at hpos
      · rename_i hquoted
        exact cutInside_of_quoted h hsplit hcut hne hquoted.1 hquoted.2
      · exact cutInside_of_open h hsplit hcut hne (by omega)
  · exact CutInside.count_pos h

/-! ## The shell -/

theorem feed_submits (world : World) (look : Appearance) (s : Shell) (line : Bytes)
    (h : count (Shell.extend s.pending line) ≤ 0) :
    Shell.feed world look s line = Shell.submit world look s (Shell.extend s.pending line) := by
  unfold Shell.feed
  exact if_neg (Int.not_lt.mpr h)

theorem feed_waits (world : World) (look : Appearance) (s : Shell) (line : Bytes)
    (h : 1 ≤ count (Shell.extend s.pending line)) :
    Shell.feed world look s line = ⟨{ s with pending := some (Shell.extend s.pending line) }, [], .reading⟩ := by
  unfold Shell.feed
  exact if_pos h

/-- A valid program leaves nothing open. Up to any point of it the count is not negative, and
something is open exactly inside its strings and between its brackets. So the shell submits
the program when it is complete, and waits for more lines when it is cut inside. -/
theorem valid_program_cut {source : Bytes} (h : (analyze source).reports = []) :
    count source = 0 ∧
      (∀ part, part <+: source → 0 ≤ count part ∧ (1 ≤ count part ↔ CutInside source part)) ∧
      (∀ (world : World) (look : Appearance) (s : Shell) (line : Bytes), Shell.extend s.pending line = source →
        Shell.feed world look s line = Shell.submit world look s source) ∧
      ∀ (world : World) (look : Appearance) (s : Shell) (line : Bytes),
        CutInside source (Shell.extend s.pending line) →
        Shell.feed world look s line = ⟨{ s with pending := some (Shell.extend s.pending line) }, [], .reading⟩ := by
  have hcount := count_of_valid h
  refine ⟨hcount, fun part hpart => ⟨count_nonneg h hpart, count_pos_iff h hpart⟩, ?_, ?_⟩
  · intro world look s line hline
    have hfeed := feed_submits world look s line (Int.le_of_eq (by rw [hline, hcount]))
    rw [hline] at hfeed
    exact hfeed
  · intro world look s line hcut
    exact feed_waits world look s line (hcut.count_pos h)

/-- A program with a bracket in a string and one in a comment. -/
def greeting : Bytes := utf8 "fun greet(name) \x7b // (\n  print \"hi (\" + name;\n\x7d"

theorem greeting_cut :
    (analyze greeting).reports = [] ∧ count greeting = 0 ∧ count (greeting.take 35) = 2 ∧
      CutInside greeting (greeting.take 35) ∧ ¬ CutInside greeting (greeting.take 9) := by
  have hvalid : (analyze greeting).reports = [] := by decide +kernel
  obtain ⟨hcount, hparts, -, -⟩ := valid_program_cut hvalid
  have hinside := (hparts (greeting.take 35) (List.take_prefix _ _)).2
  have houtside := (hparts (greeting.take 9) (List.take_prefix _ _)).2
  have htwo : count (greeting.take 35) = 2 := by decide +kernel
  refine ⟨hvalid, hcount, htwo, hinside.mp (by rw [htwo]; decide), fun h => ?_⟩
  exact absurd (houtside.mpr h) (by decide +kernel)

end Brackets

end Lox
