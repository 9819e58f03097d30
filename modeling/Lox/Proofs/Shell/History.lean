/-
  Lox.Proofs.Shell.History — what is remembered from one session to the next. However many
  inputs are recorded, what is left are the last thousand of the entries at the start and those
  that the inputs add (`History.foldl_record_keepLast`). Entries never hold a newline, so they
  can be written one on each line and read again (`History.ofText_toText`): each session that
  ends leaves its entries to the one after it, and one that is held up writes nothing.
-/

import Lox.CommandLine
import Lox.Proofs.Shell.Groups
import Mathlib.Data.List.DropRight

namespace Lox

/-! ## Lines -/

namespace Text

variable {c : UInt8} {s line piece : Bytes} {ls : List Bytes}

/-- The first line is cut off at its newline. -/
theorem splitOn_line (h : c ∉ line) (rest : Bytes) : splitOn c (line ++ c :: rest) = line :: splitOn c rest := by
  induction line with
  | nil => simp [splitOn]
  | cons b line ih =>
    obtain ⟨hb, hline⟩ := List.ne_and_not_mem_of_not_mem_cons h
    rw [List.cons_append, splitOn, if_neg (Ne.symm hb), ih hline]

/-- Behind the last newline there is an empty piece. -/
theorem splitOn_unlines (h : ∀ line ∈ ls, newline ∉ line) : splitOn newline (unlines ls) = ls ++ [[]] := by
  induction ls with
  | nil => rfl
  | cons line ls ih =>
    obtain ⟨hline, hlines⟩ := List.forall_mem_cons.mp h
    have hunlines : unlines (line :: ls) = line ++ newline :: unlines ls := by simp [unlines]
    rw [hunlines, splitOn_line hline, ih hlines, List.cons_append]

theorem not_mem_of_mem_splitOn (h : piece ∈ splitOn c s) : c ∉ piece := by
  induction s generalizing piece with
  | nil => simp_all [splitOn]
  | cons b s ih =>
    rw [splitOn] at h
    split at h
    · rcases List.mem_cons.mp h with rfl | h
      · exact List.not_mem_nil
      · exact ih h
    · rename_i hb
      obtain ⟨first, pieces, heq⟩ := List.exists_cons_of_ne_nil (splitOn_ne_nil c s)
      rw [heq] at h
      rcases List.mem_cons.mp h with rfl | h
      · exact List.not_mem_cons_of_ne_of_not_mem (Ne.symm hb) (ih (heq ▸ List.mem_cons_self))
      · exact ih (heq ▸ List.mem_cons_of_mem first h)

def bare (line : Bytes) : Bytes := if line.getLast? == some 13 then line.dropLast else line

theorem bare_subset (line : Bytes) : bare line ⊆ line := by
  unfold bare
  split
  · exact List.dropLast_subset line
  · exact List.Subset.refl line

theorem lines_of_splitOn {init : List Bytes} {last : Bytes} (h : splitOn newline s = init ++ [last]) :
    lines s = init.map bare ++ if last.isEmpty then [] else [last] := by
  simp only [lines, h, List.dropLast_concat, List.getLast?_concat]
  split
  · exact (List.append_nil _).symm
  · rfl

theorem newline_not_mem_of_mem_lines (h : line ∈ lines s) : newline ∉ line := by
  obtain ⟨init, last, hpieces⟩ := (List.eq_nil_or_concat' (splitOn newline s)).resolve_left (splitOn_ne_nil newline s)
  have hpiece {piece : Bytes} (hmem : piece ∈ init ++ [last]) : newline ∉ piece := not_mem_of_mem_splitOn (hpieces ▸ hmem)
  rw [lines_of_splitOn hpieces] at h
  rcases List.mem_append.mp h with h | h
  · obtain ⟨piece, hmem, rfl⟩ := List.mem_map.mp h
    exact fun hline => hpiece (List.mem_append_left _ hmem) (bare_subset piece hline)
  · split at h
    · cases h
    · exact hpiece (List.mem_append_right _ h)

/-- Lines that hold no newline and end in no carriage return survive being written. -/
theorem lines_unlines (hflat : ∀ line ∈ ls, newline ∉ line) (hends : ∀ line ∈ ls, line.getLast? ≠ some 13) :
    lines (unlines ls) = ls := by
  have hbare : ∀ line ∈ ls, bare line = line := fun line hline => if_neg (by simpa using hends line hline)
  rw [lines_of_splitOn (splitOn_unlines hflat), List.map_congr_left hbare, List.map_id', List.isEmpty_nil]
  exact List.append_nil ls

end Text

namespace History

/-! ## The last thousand -/

variable {h : History} {entries more : List Bytes} {input : Bytes}

theorem keepLast_eq_rtake (entries : List Bytes) : keepLast entries = entries.rtake 1000 := rfl

theorem keepLast_subset (entries : List Bytes) : keepLast entries ⊆ entries := by
  rw [keepLast]
  exact List.drop_subset _ entries

theorem keepLast_of_length_le (h : entries.length ≤ limit) : keepLast entries = entries := by
  rw [keepLast, Nat.sub_eq_zero_of_le h, List.drop_zero]

theorem length_keepLast_le (entries : List Bytes) : (keepLast entries).length ≤ limit := by
  rw [keepLast, List.length_drop]
  omega

/-- What has been dropped before makes no difference later. -/
theorem keepLast_keepLast_append (entries more : List Bytes) :
    keepLast (keepLast entries ++ more) = keepLast (entries ++ more) := by
  have hdrop : keepLast entries ++ more = (entries ++ more).drop (entries.length - limit) :=
    (List.drop_append_of_le_length (Nat.sub_le _ _)).symm
  have hsum : entries.length - limit + (entries.length + more.length - (entries.length - limit) - limit) =
      entries.length + more.length - limit := by omega
  rw [hdrop, keepLast, keepLast, List.drop_drop, List.length_drop, List.length_append, hsum]

theorem getLast?_keepLast (entries : List Bytes) : (keepLast entries).getLast? = entries.getLast? := by
  rw [keepLast, List.getLast?_drop]
  split
  · rename_i hle
    have hlimit : 0 < limit := Nat.zero_lt_succ 999
    have hnil : entries = [] := List.length_eq_zero_iff.mp (by omega)
    rw [hnil]
    rfl
  · rfl

/-! ## Recording -/

/-- The entries that inputs add to a history with this last entry. -/
def added (last : Option Bytes) : List Bytes → List Bytes
  | [] => []
  | input :: inputs =>
    if last = some (flatten input) then added last inputs
    else flatten input :: added (some (flatten input)) inputs

/-- One input: it is left out, or it is last from then on. -/
theorem record_keepLast (entries : List Bytes) (input : Bytes) :
    record ⟨keepLast entries⟩ input =
      if entries.getLast? = some (flatten input) then ⟨keepLast entries⟩ else ⟨keepLast (entries ++ [flatten input])⟩ := by
  rw [record, getLast?_keepLast, keepLast_keepLast_append]
  simp only [beq_iff_eq]

/-- Dropping the first entries on the way comes to the same as dropping them at the end. -/
theorem foldl_record_keepLast (entries inputs : List Bytes) :
    inputs.foldl record ⟨keepLast entries⟩ = ⟨keepLast (entries ++ added entries.getLast? inputs)⟩ := by
  induction inputs generalizing entries with
  | nil => rw [added, List.append_nil, List.foldl_nil]
  | cons input inputs ih =>
    rw [List.foldl_cons, record_keepLast, added]
    split
    · exact ih entries
    · rw [ih, List.getLast?_concat, List.append_assoc, List.singleton_append]

structure Proper (h : History) : Prop where
  few : h.entries.length ≤ limit
  flat : ∀ entry ∈ h.entries, Text.newline ∉ entry

theorem proper_keepLast (hflat : ∀ entry ∈ entries, Text.newline ∉ entry) : Proper ⟨keepLast entries⟩ := by
  refine ⟨?_, fun entry hentry => ?_⟩
  · dsimp only
    exact length_keepLast_le entries
  · dsimp only at hentry
    exact hflat entry (keepLast_subset entries hentry)

theorem newline_not_mem_flatten (input : Bytes) : Text.newline ∉ flatten input := by
  intro hmem
  obtain ⟨c, -, hc⟩ := List.mem_map.mp hmem
  split at hc
  · exact absurd hc (by decide)
  · rename_i hne
    exact hne hc

/-- Recording keeps a history proper. -/
theorem Proper.record (hp : h.Proper) (input : Bytes) : (h.record input).Proper := by
  unfold History.record
  dsimp only
  split
  · exact hp
  · refine proper_keepLast fun entry hentry => ?_
    rcases List.mem_append.mp hentry with hentry | hentry
    · exact hp.flat entry hentry
    · rw [List.mem_singleton.mp hentry]
      exact newline_not_mem_flatten input

theorem Proper.foldl_record (hp : h.Proper) (inputs : List Bytes) : (inputs.foldl History.record h).Proper := by
  induction inputs generalizing h with
  | nil => exact hp
  | cons input inputs ih => exact ih (hp.record input)

theorem entries_foldl_record (hp : h.Proper) (inputs : List Bytes) :
    (inputs.foldl History.record h).entries = (h.entries ++ added h.entries.getLast? inputs).rtake 1000 := by
  have hrecord := foldl_record_keepLast h.entries inputs
  rw [keepLast_of_length_le hp.few] at hrecord
  rw [hrecord, keepLast_eq_rtake]

/-! ## Writing and reading -/

theorem proper_ofText (content : Bytes) : (ofText content).Proper :=
  proper_keepLast fun _ hentry => Text.newline_not_mem_of_mem_lines (List.mem_of_mem_take hentry)

/-- The entry can be read back from a line of its own. -/
structure Legible (entry : Bytes) : Prop where
  valid : Utf8.isValid entry = true
  bare : entry.getLast? ≠ some 13
  short : entry.length < lineLimit

theorem Legible.readable {entry : Bytes} (h : Legible entry) : isReadable entry = true := by
  simp only [isReadable, h.valid, h.short, decide_true, Bool.and_self]

/-- A proper history of legible entries is read back as it was written. -/
theorem ofText_toText (hp : h.Proper) (hlegible : ∀ entry ∈ h.entries, Legible entry) : ofText h.toText = h := by
  have hpieces := Text.splitOn_unlines hp.flat
  have hreadable : ∀ piece ∈ h.entries ++ [[]], isReadable piece = true := by
    intro piece hpiece
    rcases List.mem_append.mp hpiece with hpiece | hpiece
    · exact (hlegible piece hpiece).readable
    · rw [List.mem_singleton.mp hpiece]
      decide +kernel
  unfold ofText toText
  dsimp only
  rw [hpieces, List.takeWhile_eq_self_iff.mpr hreadable, Text.lines_unlines hp.flat fun entry hentry => (hlegible entry hentry).bare,
    List.take_of_length_le (by simp), keepLast_of_length_le hp.few]

end History

/-! ## Sessions -/

namespace Shell

/-- The inputs that a shell takes from lines: the texts of the groups that are not blank, or
none if the prompt cannot be shown. -/
inductive Takes (primary : Bytes) (lines : List Bytes) : List Bytes → Prop
  | shown {groups : List (List Bytes)} {left : List Bytes} : hasControl primary = false →
      Division lines groups left → Takes primary lines (inputs groups)
  | unshown : hasControl primary = true → Takes primary lines []

variable {primary : Bytes} {lines taken : List Bytes}

theorem exists_unique_takes (primary : Bytes) (lines : List Bytes) : ∃! taken, Takes primary lines taken := by
  cases hcontrol : hasControl primary with
  | true =>
    refine ⟨[], .unshown hcontrol, fun taken h => ?_⟩
    cases h with
    | shown hshown => cases hcontrol.symm.trans hshown
    | unshown => rfl
  | false =>
    obtain ⟨groups, left, hdivision⟩ := exists_division lines
    refine ⟨inputs groups, .shown hcontrol hdivision, fun taken h => ?_⟩
    cases h with
    | shown _ hdivision' => rw [(hdivision.unique hdivision').1]
    | unshown hunshown => cases hcontrol.symm.trans hunshown

section

variable {world : World} {look : Appearance} {s : Shell}

/-- The inputs are recorded one after the other. -/
theorem shellAfter_history (inputs : List Bytes) :
    (shellAfter world look s inputs).history = inputs.foldl History.record s.history := by
  induction inputs generalizing s with
  | nil => rfl
  | cons input inputs ih => exact ih

theorem Takes.history (h : Takes primary lines taken) (hs : s.pending = none)
    (hend : (run world look primary s lines).status ≠ .unended) :
    (run world look primary s lines).shell.history = taken.foldl History.record s.history := by
  cases h with
  | @shown groups left hprimary hdivision =>
    rcases allEnd_or hs groups with hall | ⟨before, g, behind, rfl, hbefore, hg⟩
    · rw [run_of_allEnd hprimary hs hdivision hall]
      exact shellAfter_history (inputs groups)
    · rw [run_of_unended hprimary hs hdivision hbefore hg] at hend
      exact absurd rfl hend
  | unshown hprimary => rw [run_unshown hprimary hs, List.foldl_nil]

theorem allEnd_of_blank {groups : List (List Bytes)} (h : inputs groups = []) : AllEnd world look s groups := by
  induction groups generalizing s with
  | nil => trivial
  | cons g groups ih =>
    rw [inputs_cons] at h
    split at h
    · rename_i hblank
      have hsubmit : submit world look s (joined g) = { shell := { s with pending := none } } := if_pos hblank
      refine ⟨?_, ih h⟩
      rw [hsubmit]
      simp
    · cases h

/-- A session that takes no input comes to an end. -/
theorem Takes.ends (h : Takes primary lines []) (hs : s.pending = none) :
    (run world look primary s lines).status ≠ .unended := by
  generalize hnone : ([] : List Bytes) = taken at h
  cases h with
  | shown hprimary hdivision =>
    rw [run_of_allEnd hprimary hs hdivision (allEnd_of_blank hnone.symm)]
    simp
  | unshown hprimary =>
    rw [run_unshown hprimary hs]
    simp

end

end Shell

namespace CommandLine

/-- The arguments ask for an interactive session, and this is how it is set up. -/
def Opens (world : World) (args : List Bytes) (s : Setup) : Prop :=
  ∃ asked, request args = .ok asked ∧ asked.source = .interactive ∧ setup world asked = .ok s

def session (world : World) (s : Setup) (input : Bytes) : Shell.Turn :=
  (openShell world s).run world s.look s.config.prompt (Text.lines input)

section

variable {world : World} {args : List Bytes} {s : Setup}

theorem Opens.run (h : Opens world args s) (input : Bytes) :
    (run world args input).2 = (leave s ((session world s input).after [.out Shell.banner])).2 := by
  obtain ⟨asked, hasked, hsource, hsetup⟩ := h
  simp only [CommandLine.run, hasked, hsetup, hsource, session]

theorem Opens.run_of_ended (h : Opens world args s) {input : Bytes} (hend : (session world s input).status ≠ .unended) :
    (CommandLine.run world args input).2 = historyFile? s (session world s input).shell := by
  rw [h.run, leave]
  exact congrArg Prod.snd (if_neg hend)

/-- A session that is held up writes no file. -/
theorem Opens.run_of_unended (h : Opens world args s) {input : Bytes} (hend : (session world s input).status = .unended) :
    (CommandLine.run world args input).2 = none := by
  rw [h.run, leave]
  exact congrArg Prod.snd (if_pos hend)

theorem openShell_proper (world : World) (s : Setup) : (openShell world s).history.Proper := by
  have hnone : History.Proper {} := ⟨Nat.zero_le _, fun _ h => absurd h List.not_mem_nil⟩
  unfold openShell
  dsimp only
  split
  · exact hnone
  · split
    · exact History.proper_ofText _
    · exact hnone

theorem openShell_of_read (hpath : s.config.historyFile ≠ []) {content : Bytes}
    (hread : world.read s.config.historyFile = .ok content) : (openShell world s).history = History.ofText content := by
  simp [openShell, hpath, hread]

theorem session_history {input : Bytes} {taken : List Bytes} (h : Shell.Takes s.config.prompt (Text.lines input) taken)
    (hend : (session world s input).status ≠ .unended) :
    (session world s input).shell.history = taken.foldl History.record (openShell world s).history :=
  h.history rfl hend

end

/-- A session that comes to its end does so with the last thousand of the entries that it started
from, followed by the inputs that it has taken, each on one line and unless it is the same as the
entry then last. If all of them are legible then a session that reads what has been written
starts from the very same entries, and writes them again as they are if it takes no input. A
session that is held up by an input writes nothing. -/
theorem history_survives {world : World} {args : List Bytes} {s : Setup} (hs : Opens world args s) (input : Bytes) :
    (∃! taken, Shell.Takes s.config.prompt (Text.lines input) taken) ∧
    ((session world s input).status = .unended → (run world args input).2 = none) ∧
    ((session world s input).status ≠ .unended → ∀ taken, Shell.Takes s.config.prompt (Text.lines input) taken →
      let start := (openShell world s).history.entries
      let entries := (session world s input).shell.history.entries
      entries = (start ++ History.added start.getLast? taken).rtake 1000 ∧
      (∀ entry ∈ entries, Text.newline ∉ entry) ∧
      (run world args input).2 =
        (if s.config.historyFile = [] then none else some (s.config.historyFile, Text.unlines entries)) ∧
      ((∀ entry ∈ entries, History.Legible entry) →
        ∀ path content, (run world args input).2 = some (path, content) →
          ∀ (next : World) args' s', Opens next args' s' → s'.config.historyFile = path → next.read path = .ok content →
            (openShell next s').history.entries = entries ∧
            ∀ input', Shell.Takes s'.config.prompt (Text.lines input') [] →
              (run next args' input').2 = some (path, content))) := by
  refine ⟨Shell.exists_unique_takes _ _, hs.run_of_unended, fun hend taken htaken => ?_⟩
  have hhistory := session_history htaken hend
  have hproper : (session world s input).shell.history.Proper := hhistory ▸ (openShell_proper world s).foldl_record taken
  refine ⟨?_, hproper.flat, ?_, fun hlegible path content hwritten next args' s' hs' hpath hread => ?_⟩
  · rw [hhistory]
    exact History.entries_foldl_record (openShell_proper world s) taken
  · rw [hs.run_of_ended hend, historyFile?]
    simp [History.toText]
  · rw [hs.run_of_ended hend, historyFile?] at hwritten
    split at hwritten
    · cases hwritten
    · rename_i hnonempty
      obtain ⟨rfl, rfl⟩ := Prod.mk.inj (Option.some.inj hwritten)
      have hopened : (openShell next s').history = (session world s input).shell.history := by
        rw [openShell_of_read (by simpa [hpath] using hnonempty) (by rwa [hpath]), History.ofText_toText hproper hlegible]
      refine ⟨congrArg History.entries hopened, fun input' htaken' => ?_⟩
      have hend' : (session next s' input').status ≠ .unended := htaken'.ends rfl
      rw [hs'.run_of_ended hend', historyFile?, hpath, if_neg hnonempty, session_history htaken' hend', List.foldl_nil,
        hopened]

/-! ## Two sessions -/

namespace TwoSessions

def historyPath : Bytes := utf8 "/home/.rpdc_history"

def tree (history : Bytes) : FileTree := ⟨[([utf8 "home", utf8 ".rpdc_history"], .file history)]⟩

def world (files : FileTree) : World where
  workingDirectory := utf8 "/home"
  home := some (utf8 "/home")
  time := []
  clock := fun _ => 0
  fuel := 100
  read := files.read (utf8 "/home")

/-- The first input is the last entry of the history, the second has two lines, the third is blank. -/
def input : Bytes := utf8 "print 1;\n(\n)\n \n:quit\nprint 2;\n"

def before : FileTree := tree (utf8 "var a;\r\nprint 1;\n")

def after : FileTree := before.write (utf8 "/home") historyPath (utf8 "var a;\nprint 1;\n( )\n:quit\n")

theorem opens {files : FileTree} (hfiles : files = before ∨ files = after) :
    ∃ s, Opens (world files) [] s ∧ s.config.historyFile = historyPath ∧ s.config.prompt = utf8 "> " ∧
      (session (world files) s input).status = .ended := by
  have hsetup : ((setup (world files) ⟨{}, .interactive⟩).toOption.map fun s =>
      (s.config.historyFile, s.config.prompt, (session (world files) s input).status)) =
        some (historyPath, utf8 "> ", .ended) := by
    rcases hfiles with rfl | rfl <;> decide +kernel
  obtain ⟨s, hs, hfound⟩ := Option.map_eq_some_iff.mp hsetup
  obtain ⟨hpath, hfound⟩ := Prod.mk.inj hfound
  obtain ⟨hprompt, hended⟩ := Prod.mk.inj hfound
  refine ⟨s, ⟨⟨{}, .interactive⟩, rfl, rfl, ?_⟩, hpath, hprompt, hended⟩
  cases hok : setup (world files) ⟨{}, .interactive⟩ with
  | error => rw [hok] at hs; cases hs
  | ok s' => rw [hok] at hs; cases hs; rfl

theorem takes : Shell.Takes (utf8 "> ") (Text.lines input) [utf8 "print 1;", utf8 "(\n)", utf8 ":quit"] := by
  have hfirst : Shell.IsGroup [utf8 "print 1;"] := Shell.isOpen_nil.group (by decide +kernel)
  have hsecond : Shell.IsGroup [utf8 "(", utf8 ")"] := by
    have hopen : Shell.IsOpen [utf8 "("] := Shell.isOpen_nil.concat (by decide +kernel)
    exact hopen.group (by decide +kernel)
  have hblank : Shell.IsGroup [utf8 " "] := Shell.isOpen_nil.group (by decide +kernel)
  have hquit : Shell.IsGroup [utf8 ":quit"] := Shell.isOpen_nil.group (by decide +kernel)
  have hlines : Text.lines input = [utf8 "print 1;", utf8 "(", utf8 ")", utf8 " ", utf8 ":quit", utf8 "print 2;"] := by
    decide +kernel
  have hdivision : Shell.Division (Text.lines input)
      [[utf8 "print 1;"], [utf8 "(", utf8 ")"], [utf8 " "], [utf8 ":quit"]] [utf8 "print 2;"] := by
    rw [hlines]
    refine (Shell.division_stays (by decide +kernel)).mpr ⟨hfirst, _, rfl, ?_⟩
    refine (Shell.division_stays (by decide +kernel)).mpr ⟨hsecond, _, rfl, ?_⟩
    refine (Shell.division_stays (by decide +kernel)).mpr ⟨hblank, _, rfl, ?_⟩
    exact (Shell.division_leaves (by decide +kernel)).mpr ⟨hquit, rfl, rfl⟩
  have hinputs : Shell.inputs [[utf8 "print 1;"], [utf8 "(", utf8 ")"], [utf8 " "], [utf8 ":quit"]] =
      [utf8 "print 1;", utf8 "(\n)", utf8 ":quit"] := by decide +kernel
  exact hinputs ▸ .shown (by decide +kernel) hdivision

theorem takes_nothing : Shell.Takes (utf8 "> ") (Text.lines (utf8 " \n")) [] := by
  have hblank : Shell.IsGroup [utf8 " "] := Shell.isOpen_nil.group (by decide +kernel)
  have hlines : Text.lines (utf8 " \n") = [utf8 " "] := by decide +kernel
  have hdivision : Shell.Division (Text.lines (utf8 " \n")) [[utf8 " "]] [] := by
    rw [hlines]
    refine (Shell.division_stays (by decide +kernel)).mpr ⟨hblank, [], rfl, ?_⟩
    exact Shell.division_nil.mpr ⟨rfl, Shell.isOpen_nil⟩
  have hinputs : Shell.inputs [[utf8 " "]] = [] := by decide +kernel
  exact hinputs ▸ .shown (by decide +kernel) hdivision

end TwoSessions

open TwoSessions in
/-- The second session takes no input, and writes what the first has written. -/
theorem history_survives_two_sessions :
    ∃ s s', Opens (world before) [] s ∧ Opens (world after) [] s' ∧
      Shell.Takes s.config.prompt (Text.lines input) [utf8 "print 1;", utf8 "(\n)", utf8 ":quit"] ∧
      (openShell (world before) s).history.entries = [utf8 "var a;", utf8 "print 1;"] ∧
      (session (world before) s input).shell.history.entries = [utf8 "var a;", utf8 "print 1;", utf8 "( )", utf8 ":quit"] ∧
      (run (world before) [] input).2 = some (historyPath, utf8 "var a;\nprint 1;\n( )\n:quit\n") ∧
      (openShell (world after) s').history.entries = (session (world before) s input).shell.history.entries ∧
      (run (world after) [] (utf8 " \n")).2 = some (historyPath, utf8 "var a;\nprint 1;\n( )\n:quit\n") := by
  obtain ⟨s, hs, hpath, hprompt, hended⟩ := opens (.inl rfl)
  obtain ⟨s', hs', hpath', hprompt', -⟩ := opens (.inr rfl)
  have hend : (session (world before) s input).status ≠ .unended := by simp [hended]
  have hread : (world before).read s.config.historyFile = .ok (utf8 "var a;\r\nprint 1;\n") := by
    rw [hpath]
    decide +kernel
  have hread' : (world after).read historyPath = .ok (utf8 "var a;\nprint 1;\n( )\n:quit\n") := by decide +kernel
  have hnamed : historyPath ≠ [] := by decide
  have hstart : (openShell (world before) s).history.entries = [utf8 "var a;", utf8 "print 1;"] := by
    rw [openShell_of_read (hpath ▸ hnamed) hread]
    decide +kernel
  have htakes : Shell.Takes s.config.prompt (Text.lines input) [utf8 "print 1;", utf8 "(\n)", utf8 ":quit"] := hprompt ▸ takes
  obtain ⟨hentries, -, hwritten, hnext⟩ := (history_survives hs input).2.2 hend _ htakes
  have hlast : (session (world before) s input).shell.history.entries =
      [utf8 "var a;", utf8 "print 1;", utf8 "( )", utf8 ":quit"] := by
    rw [hentries, hstart]
    decide +kernel
  have hlegible : ∀ entry ∈ (session (world before) s input).shell.history.entries, History.Legible entry := by
    intro entry hentry
    rw [hlast] at hentry
    simp only [List.mem_cons, List.not_mem_nil, or_false] at hentry
    rcases hentry with rfl | rfl | rfl | rfl
    all_goals exact ⟨by decide +kernel, by decide +kernel, by decide +kernel⟩
  have hcontent : Text.unlines [utf8 "var a;", utf8 "print 1;", utf8 "( )", utf8 ":quit"] =
      utf8 "var a;\nprint 1;\n( )\n:quit\n" := by decide +kernel
  rw [hlast, hpath, if_neg hnamed, hcontent] at hwritten
  obtain ⟨hreopened, hagain⟩ := hnext hlegible _ _ hwritten (world after) [] s' hs' hpath' hread'
  exact ⟨s, s', hs, hs', htakes, hstart, hlast, hwritten, hreopened, hagain _ (hprompt' ▸ takes_nothing)⟩

end CommandLine

end Lox
