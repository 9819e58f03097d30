/-
  Lox.Proofs.Shell.Groups — how the shell takes its lines. A group is the shortest run of lines
  that leaves no bracket open, and lines have one division into groups that goes on until the
  session is left or no group is complete (`exists_division`, `Division.unique`). What is pending
  after some lines of a group is the text of these lines (`pendingOf`), so a run over a group
  shows a prompt before each line and takes in the group's text after the last (`run_group`).
  A run over any lines does so group by group, up to the first group that does not come to an
  end if there is one (`run_groups`, `lines_taken_in_groups`). The bound on how long a group may
  take does not matter to a run that ends (`run_bound`).
-/

import Lox.Proofs.Brackets.Cut
import Lox.Proofs.Session.Endings
import Mathlib.Data.List.Basic
import Mathlib.Logic.ExistsUnique

namespace Lox

namespace Shell

/-! ## Groups -/

def joined (lines : List Bytes) : Bytes := [Text.newline].intercalate lines

theorem joined_concat {part : List Bytes} (h : part ≠ []) (line : Bytes) :
    joined (part ++ [line]) = joined part ++ Text.newline :: line := by
  induction part with
  | nil => exact absurd rfl h
  | cons first part ih =>
    cases part with
    | nil => simp [joined, List.intercalate]
    | cons second part => simpa [joined, List.intercalate] using ih (List.cons_ne_nil _ _)

/-- However many of the lines are read, a bracket is open. -/
def IsOpen (lines : List Bytes) : Prop := ∀ part, part <+: lines → part ≠ [] → 0 < Brackets.count (joined part)

/-- No bracket is open after these lines, and one is after any fewer of them. -/
structure IsGroup (lines : List Bytes) : Prop where
  ne_nil : lines ≠ []
  closed : Brackets.count (joined lines) ≤ 0
  shortest : ∀ part, part <+: lines → part ≠ [] → part ≠ lines → 0 < Brackets.count (joined part)

theorem isOpen_nil : IsOpen [] := fun _ hpart hne => absurd (List.prefix_nil.mp hpart) hne

theorem IsOpen.concat {part : List Bytes} {line : Bytes} (h : IsOpen part)
    (hline : 0 < Brackets.count (joined (part ++ [line]))) : IsOpen (part ++ [line]) := by
  intro part' hpart hne
  rcases List.prefix_concat_iff.mp hpart with rfl | hpart
  · exact hline
  · exact h part' hpart hne

theorem IsOpen.group {part : List Bytes} {line : Bytes} (h : IsOpen part)
    (hline : Brackets.count (joined (part ++ [line])) ≤ 0) : IsGroup (part ++ [line]) := by
  refine ⟨List.append_ne_nil_of_right_ne_nil _ (List.cons_ne_nil _ _), hline, fun part' hpart hne hproper => ?_⟩
  rcases List.prefix_concat_iff.mp hpart with heq | hpart
  · exact absurd heq hproper
  · exact h part' hpart hne

/-- Reading on after open lines, one comes to the end of a group or to the end of the lines. -/
theorem IsOpen.append_cases {part : List Bytes} (h : IsOpen part) (lines : List Bytes) :
    IsOpen (part ++ lines) ∨ ∃ g rest, part ++ lines = g ++ rest ∧ IsGroup g := by
  induction lines generalizing part with
  | nil => exact .inl (by rwa [List.append_nil])
  | cons line lines ih =>
    rw [List.append_cons]
    by_cases hline : 0 < Brackets.count (joined (part ++ [line]))
    · exact ih (h.concat hline)
    · exact .inr ⟨part ++ [line], lines, rfl, h.group (Int.not_lt.mp hline)⟩

/-- Nothing behind a group reopens it. -/
theorem IsGroup.not_open {g rest : List Bytes} (h : IsGroup g) : ¬ IsOpen (g ++ rest) := fun hopen =>
  absurd (hopen g (List.prefix_append g rest) h.ne_nil) (Int.not_lt.mpr h.closed)

theorem IsGroup.eq_of_prefix {g g' : List Bytes} (h : IsGroup g) (h' : IsGroup g') (hpart : g <+: g') : g = g' := by
  by_cases heq : g = g'
  · exact heq
  · exact absurd (h'.shortest g hpart h.ne_nil heq) (Int.not_lt.mpr h.closed)

/-- Lines start with at most one group. -/
theorem IsGroup.unique {g g' rest rest' : List Bytes} (h : IsGroup g) (h' : IsGroup g') (heq : g ++ rest = g' ++ rest') :
    g = g' ∧ rest = rest' := by
  have hg : g = g' := by
    have hpart : g <+: g' ++ rest' := ⟨rest, heq⟩
    rcases List.prefix_or_prefix_of_prefix hpart (List.prefix_append g' rest') with hpart | hpart
    · exact h.eq_of_prefix h' hpart
    · exact (h'.eq_of_prefix h hpart).symm
  subst hg
  exact ⟨rfl, List.append_cancel_left heq⟩

/-! ## Divisions into groups -/

def firstWord (input : Bytes) : Bytes := (Text.trim input).takeWhile fun c => c != 32 && c != 9

def leaves (g : List Bytes) : Bool := firstWord (joined g) = utf8 ":quit" || firstWord (joined g) = utf8 ":exit"

/-- All lines are in groups, one after the other, except those that are left: the lines after
the command that leaves the session, or lines that do not come to the end of a group. -/
structure Division (lines : List Bytes) (groups : List (List Bytes)) (left : List Bytes) : Prop where
  whole : lines = groups.flatten ++ left
  isGroup : ∀ g ∈ groups, IsGroup g
  stays : ∀ g ∈ groups.dropLast, leaves g = false
  isOpen : groups.getLast?.any leaves = false → IsOpen left

variable {lines left : List Bytes} {g : List Bytes} {groups : List (List Bytes)}

theorem division_nil : Division lines [] left ↔ lines = left ∧ IsOpen left := by
  constructor
  · intro h
    exact ⟨h.whole, h.isOpen rfl⟩
  · rintro ⟨rfl, hopen⟩
    exact ⟨rfl, List.forall_mem_nil _, List.forall_mem_nil _, fun _ => hopen⟩

theorem division_leaves (hleaves : leaves g = true) :
    Division lines (g :: groups) left ↔ IsGroup g ∧ groups = [] ∧ lines = g ++ left := by
  constructor
  · intro h
    have hnil : groups = [] := by
      cases groups with
      | nil => rfl
      | cons next groups => exact absurd (h.stays g List.mem_cons_self) (by simp [hleaves])
    subst hnil
    exact ⟨h.isGroup g List.mem_cons_self, rfl, by simpa using h.whole⟩
  · rintro ⟨hg, rfl, rfl⟩
    refine ⟨by simp, List.forall_mem_singleton.mpr hg, List.forall_mem_nil _, fun hstays => ?_⟩
    exact absurd hstays (by simp [hleaves])

theorem getLast?_any_cons (groups : List (List Bytes)) (hstays : leaves g = false) :
    (g :: groups).getLast?.any leaves = groups.getLast?.any leaves := by
  cases groups with
  | nil => simp [hstays]
  | cons next groups => rw [List.getLast?_cons_cons]

theorem division_stays (hstays : leaves g = false) :
    Division lines (g :: groups) left ↔ IsGroup g ∧ ∃ rest, lines = g ++ rest ∧ Division rest groups left := by
  have hdrop : (∀ g' ∈ (g :: groups).dropLast, leaves g' = false) ↔ ∀ g' ∈ groups.dropLast, leaves g' = false := by
    cases groups with
    | nil => simp
    | cons next groups => simp [hstays]
  have hlast := getLast?_any_cons groups hstays
  constructor
  · intro h
    obtain ⟨hg, hgroups⟩ := List.forall_mem_cons.mp h.isGroup
    refine ⟨hg, groups.flatten ++ left, ?_, rfl, hgroups, hdrop.mp h.stays, hlast ▸ h.isOpen⟩
    rw [h.whole, List.flatten_cons, List.append_assoc]
  · rintro ⟨hg, rest, rfl, h⟩
    refine ⟨?_, List.forall_mem_cons.mpr ⟨hg, h.isGroup⟩, hdrop.mpr h.stays, hlast ▸ h.isOpen⟩
    rw [h.whole, List.flatten_cons, List.append_assoc]

/-- All lines can be divided. -/
theorem exists_division (lines : List Bytes) : ∃ groups left, Division lines groups left := by
  -- Groups are not empty, so behind one there are fewer lines.
  induction hlength : lines.length using Nat.strongRecOn generalizing lines with
  | ind n ih =>
    rcases isOpen_nil.append_cases lines with hopen | ⟨g, rest, heq, hg⟩
    · exact ⟨[], lines, division_nil.mpr ⟨rfl, hopen⟩⟩
    · rw [List.nil_append] at heq
      subst heq
      cases hleaves : leaves g with
      | true => exact ⟨[g], rest, (division_leaves hleaves).mpr ⟨hg, rfl, rfl⟩⟩
      | false =>
        have hshorter : rest.length < n := by
          have hpos := List.length_pos_iff.mpr hg.ne_nil
          rw [← hlength, List.length_append]
          omega
        obtain ⟨groups, left, h⟩ := ih _ hshorter rest rfl
        exact ⟨g :: groups, left, (division_stays hleaves).mpr ⟨hg, rest, rfl, h⟩⟩

/-- There is but one division. -/
theorem Division.unique {groups' : List (List Bytes)} {left' : List Bytes} (h : Division lines groups left)
    (h' : Division lines groups' left') : groups = groups' ∧ left = left' := by
  induction groups generalizing lines groups' with
  | nil =>
    obtain ⟨rfl, hopen⟩ := division_nil.mp h
    cases groups' with
    | nil => exact ⟨rfl, (division_nil.mp h').1⟩
    | cons g' groups' =>
      have hwhole := h'.whole
      rw [List.flatten_cons, List.append_assoc] at hwhole
      exact absurd (hwhole ▸ hopen) (h'.isGroup g' List.mem_cons_self).not_open
  | cons g groups ih =>
    have hg := h.isGroup g List.mem_cons_self
    cases groups' with
    | nil =>
      obtain ⟨rfl, hopen⟩ := division_nil.mp h'
      have hwhole := h.whole
      rw [List.flatten_cons, List.append_assoc] at hwhole
      exact absurd (hwhole ▸ hopen) hg.not_open
    | cons g' groups' =>
      have hg' := h'.isGroup g' List.mem_cons_self
      have hwhole := h.whole.symm.trans h'.whole
      rw [List.flatten_cons, List.flatten_cons, List.append_assoc, List.append_assoc] at hwhole
      obtain ⟨rfl, -⟩ := hg.unique hg' hwhole
      cases hleaves : leaves g with
      | true =>
        obtain ⟨-, rfl, rfl⟩ := (division_leaves hleaves).mp h
        obtain ⟨-, rfl, heq⟩ := (division_leaves hleaves).mp h'
        exact ⟨rfl, List.append_cancel_left heq⟩
      | false =>
        obtain ⟨-, rest, rfl, hrest⟩ := (division_stays hleaves).mp h
        obtain ⟨-, rest', heq, hrest'⟩ := (division_stays hleaves).mp h'
        obtain rfl := List.append_cancel_left heq
        obtain ⟨rfl, rfl⟩ := ih hrest hrest'
        exact ⟨rfl, rfl⟩

/-! ## Reading a group -/

def shown (primary : Bytes) (read : Nat) : Output := .out (if read = 0 then primary else continuationPrompt)

def prompts (primary : Bytes) (reads : Nat) : List Output := (List.range reads).map (shown primary)

/-- What is pending after these lines of a group. -/
def pendingOf (part : List Bytes) : Option Bytes := if part = [] then none else some (joined part)

theorem extend_pendingOf (part : List Bytes) (line : Bytes) : extend (pendingOf part) line = joined (part ++ [line]) := by
  unfold pendingOf
  split
  · rename_i hnil
    rw [hnil]
    exact (List.append_nil line).symm
  · rename_i hne
    exact (joined_concat hne line).symm

/-! ## Taking in a group -/

def isBlank (input : Bytes) : Bool := (Text.trim input).isEmpty

theorem firstWord_head {input : Bytes} {c : UInt8} {rest : Bytes} (h : firstWord input = c :: rest) :
    (Text.trim input).head? = some c := by
  obtain ⟨more, hmore⟩ := List.takeWhile_prefix (l := Text.trim input) fun c => c != 32 && c != 9
  change firstWord input ++ more = _ at hmore
  rw [← hmore, h]
  rfl

theorem ofText_quit_iff (input : Bytes) :
    Command.ofText input = .quit ↔ firstWord input = utf8 ":quit" ∨ firstWord input = utf8 ":exit" := by
  have hquit : utf8 ":quit" = ':'.toUInt8 :: utf8 "quit" := by decide
  have hexit : utf8 ":exit" = ':'.toUInt8 :: utf8 "exit" := by decide
  have hname : (Text.trim input).takeWhile (fun c => !(c == 32 || c == 9)) = firstWord input := by
    unfold firstWord
    congr 1
    funext c
    simp [bne]
  unfold Command.ofText
  dsimp only
  rw [hname]
  split
  · rename_i hhead
    constructor
    · intro h
      cases h
    · rintro (h | h)
      · rw [hquit] at h
        exact absurd (firstWord_head h) (by simpa using hhead)
      · rw [hexit] at h
        exact absurd (firstWord_head h) (by simpa using hhead)
  · constructor
    · intro h
      split at h
      · rename_i hword
        simpa using hword
      · repeat' split at h
        all_goals cases h
    · intro h
      rw [if_pos (by simpa using h)]

theorem evaluate_ended_iff (world : World) (look : Appearance) (session : Session) (g : List Bytes) :
    (evaluate world look session (joined g)).status = .ended ↔ leaves g = true := by
  have hquit : leaves g = true ↔ Command.ofText (joined g) = .quit := by
    simp [leaves, ofText_quit_iff]
  have hcode (source : Bytes) : (runCode world look session source).status ≠ .ended := by
    unfold runCode
    dsimp only
    split <;> simp
  rw [hquit, evaluate]
  cases Command.ofText (joined g) with
  | code text => simpa [obey] using hcode text
  | load path =>
    simp only [obey, reduceCtorEq, iff_false]
    split
    · simp [complain]
    · split
      · simp [complain]
      · exact hcode _
  | _ => simp [obey, complain]

/-- A blank group is no command. -/
theorem leaves_of_blank {g : List Bytes} (h : isBlank (joined g) = true) : leaves g = false := by
  have htrim : Text.trim (joined g) = [] := List.isEmpty_iff.mp h
  rw [leaves, firstWord, htrim]
  decide

/-- The session ends with a group that says so, and with no other. -/
theorem submit_ended_iff (world : World) (look : Appearance) (s : Shell) (g : List Bytes) :
    (submit world look s (joined g)).status = .ended ↔ leaves g = true := by
  unfold submit
  change (if isBlank (joined g) = true then _ else _ : Turn).status = _ ↔ _
  by_cases hblank : isBlank (joined g) = true
  · simp [hblank, leaves_of_blank hblank]
  · rw [if_neg hblank]
    exact evaluate_ended_iff _ look s.session g

theorem submit_pending (world : World) (look : Appearance) (s : Shell) (input : Bytes) :
    (submit world look s input).shell.pending = none := by
  unfold submit
  split <;> rfl

namespace Turn

theorem after_after (t : Turn) (first second : List Output) : (t.after second).after first = t.after (first ++ second) := by
  simp [Turn.after]

theorem after_andThen (t : Turn) (outputs : List Output) (next : Shell → Turn) :
    (t.after outputs).andThen next = (t.andThen next).after outputs := by
  unfold Turn.andThen
  change (if t.status = .reading then _ else _) = _
  split
  · exact (after_after _ _ _).symm
  · rfl

theorem andThen_of_reading {t : Turn} (h : t.status = .reading) (next : Shell → Turn) :
    t.andThen next = (next t.shell).after t.outputs := if_pos h

/-- Nothing comes after a turn that stopped reading. -/
theorem andThen_of_ne {t : Turn} (h : t.status ≠ .reading) (next : Shell → Turn) : t.andThen next = t := if_neg h

end Turn

section

variable {world : World} {look : Appearance} {primary : Bytes} {s : Shell}

theorem prompt?_pendingOf (s : Shell) (hprimary : hasControl primary = false) (part : List Bytes) :
    ∃ text, prompt? { s with pending := pendingOf part } primary = some text ∧ .out text = shown primary part.length := by
  have hcontinuation : hasControl continuationPrompt = false := by decide +kernel
  cases part with
  | nil => exact ⟨primary, by simp [prompt?, prompt, pendingOf, hprimary], rfl⟩
  | cons line part => exact ⟨continuationPrompt, by simp [prompt?, prompt, pendingOf, hcontinuation], rfl⟩

/-- One turn inside a group: its prompt is shown, and then what is read is taken in. -/
theorem turn_pendingOf (hprimary : hasControl primary = false) (part : List Bytes) (next : Option Bytes) :
    turn world look primary { s with pending := pendingOf part } next =
      (hear world look { s with pending := pendingOf part } next).after [shown primary part.length] := by
  obtain ⟨text, htext, hshown⟩ := prompt?_pendingOf s hprimary part
  rw [turn, htext, ← hshown]
  rfl

/-- A line that leaves a bracket open is kept. -/
theorem hear_waits {part : List Bytes} {line : Bytes} (h : 0 < Brackets.count (joined (part ++ [line]))) :
    hear world look { s with pending := pendingOf part } (some line) =
      ⟨{ s with pending := pendingOf (part ++ [line]) }, [], .reading⟩ := by
  have hpending : pendingOf (part ++ [line]) = some (joined (part ++ [line])) := by simp [pendingOf]
  rw [hpending, ← extend_pendingOf]
  rw [← extend_pendingOf] at h
  exact Brackets.feed_waits world look { s with pending := pendingOf part } line h

/-- The line that closes the last one hands the group over. -/
theorem hear_submits {part : List Bytes} {line : Bytes} (h : Brackets.count (joined (part ++ [line])) ≤ 0) :
    hear world look { s with pending := pendingOf part } (some line) = submit world look s (joined (part ++ [line])) := by
  rw [← extend_pendingOf] at h ⊢
  exact Brackets.feed_submits world look { s with pending := pendingOf part } line h

/-- What is left of a group after some of its lines. -/
theorem run_inside (hprimary : hasControl primary = false) (part : List Bytes) {more : List Bytes} (hg : IsGroup (part ++ more))
    (hmore : more ≠ []) (rest : List Bytes) :
    run world look primary { s with pending := pendingOf part } (more ++ rest) =
      ((submit world look s (joined (part ++ more))).after
        ((List.range' part.length more.length).map (shown primary))).andThen (run world look primary · rest) := by
  induction more generalizing part with
  | nil => exact absurd rfl hmore
  | cons line more ih =>
    rw [List.cons_append, run, turn_pendingOf hprimary]
    cases more with
    | nil =>
      rw [hear_submits hg.closed]
      rfl
    | cons second more =>
      -- The group is the shortest, so it does not end with this line.
      have hopen : 0 < Brackets.count (joined (part ++ [line])) :=
        hg.shortest _ ⟨second :: more, (List.append_cons ..).symm⟩ (by simp) (by simp)
      rw [List.append_cons part line] at hg ⊢
      rw [hear_waits hopen, Turn.after_andThen, Turn.andThen_of_reading rfl, ih _ hg (List.cons_ne_nil _ _),
        Turn.after_after, ← Turn.after_andThen, Turn.after_after]
      simp [List.range'_succ]

/-- A group makes one turn. -/
theorem run_group (hprimary : hasControl primary = false) (hs : s.pending = none) {g : List Bytes} (hg : IsGroup g)
    (rest : List Bytes) :
    run world look primary s (g ++ rest) =
      ((submit world look s (joined g)).after (prompts primary g.length)).andThen (run world look primary · rest) := by
  have hs : s = { s with pending := pendingOf [] } := by
    cases s
    cases hs
    rfl
  rw [prompts, List.range_eq_range', hs]
  exact run_inside hprimary [] hg hg.ne_nil rest

/-- Lines that do not come to the end of a group. -/
theorem run_open (hprimary : hasControl primary = false) (part : List Bytes) {more : List Bytes} (h : IsOpen (part ++ more)) :
    run world look primary { s with pending := pendingOf part } more =
      ⟨{ s with pending := pendingOf (part ++ more) },
        (List.range' part.length (more.length + 1)).map (shown primary) ++ [.out (utf8 "\n")], .ended⟩ := by
  induction more generalizing part with
  | nil =>
    rw [run, turn_pendingOf hprimary, List.append_nil]
    rfl
  | cons line more ih =>
    have hopen : 0 < Brackets.count (joined (part ++ [line])) := h _ ⟨more, (List.append_cons ..).symm⟩ (by simp)
    rw [List.append_cons] at h ⊢
    rw [run, turn_pendingOf hprimary, hear_waits hopen, Turn.after_andThen, Turn.andThen_of_reading rfl, ih _ h]
    simp [Turn.after, List.range'_succ]

end

/-! ## Taking in all lines -/

def inputs (groups : List (List Bytes)) : List Bytes := (groups.map joined).filter (!isBlank ·)

/-- What is shown for groups: the prompts for the lines of each and then its outputs. -/
def transcript (world : World) (look : Appearance) (primary : Bytes) (s : Shell) : List (List Bytes) → List Output
  | [] => []
  | g :: groups =>
    let t := submit world look s (joined g)
    prompts primary g.length ++ t.outputs ++ transcript world look primary t.shell groups

/-- What is shown at the end of the lines, after those that are left. -/
def farewell (primary : Bytes) (left : List Bytes) : List Output := prompts primary (left.length + 1) ++ [.out (utf8 "\n")]

/-- The shell after inputs. Each is evaluated in the session that the one before it left, and at
the time when that one ended. -/
def shellAfter (world : World) (look : Appearance) (s : Shell) (inputs : List Bytes) : Shell :=
  inputs.foldl (fun s input =>
    let effect := evaluate (world.later s.readings) look s.session input
    ⟨effect.session, s.history.record input, none, s.readings + effect.readings⟩) s

/-- Each of the groups comes to an end, submitted after those before it. -/
def AllEnd (world : World) (look : Appearance) (s : Shell) : List (List Bytes) → Prop
  | [] => True
  | g :: groups =>
    let t := submit world look s (joined g)
    t.status ≠ .unended ∧ AllEnd world look t.shell groups

section

variable {world : World} {look : Appearance} {primary : Bytes} {s : Shell}

theorem inputs_cons (g : List Bytes) (groups : List (List Bytes)) :
    inputs (g :: groups) = if isBlank (joined g) then inputs groups else joined g :: inputs groups := by
  unfold inputs
  rw [List.map_cons, List.filter_cons]
  cases isBlank (joined g) <;> rfl

theorem shellAfter_inputs_cons (hs : s.pending = none) (g : List Bytes) (groups : List (List Bytes)) :
    shellAfter world look s (inputs (g :: groups)) =
      shellAfter world look (submit world look s (joined g)).shell (inputs groups) := by
  have hs : { s with pending := none } = s := by rw [← hs]
  rw [inputs_cons, submit]
  change _ = shellAfter world look (if isBlank (joined g) = true then _ else _ : Turn).shell _
  by_cases hblank : isBlank (joined g) = true
  · rw [if_pos hblank, if_pos hblank, hs]
  · rw [if_neg hblank, if_neg hblank]
    rfl

/-- However many groups there are, either all come to an end or one is the first that does not. -/
theorem allEnd_or (hs : s.pending = none) (groups : List (List Bytes)) :
    AllEnd world look s groups ∨ ∃ taken g behind, groups = taken ++ g :: behind ∧ AllEnd world look s taken ∧
      (submit world look (shellAfter world look s (inputs taken)) (joined g)).status = .unended := by
  induction groups generalizing s with
  | nil => exact .inl trivial
  | cons g groups ih =>
    by_cases hend : (submit world look s (joined g)).status = .unended
    · exact .inr ⟨[], g, groups, rfl, trivial, hend⟩
    · rcases ih (submit_pending world look s (joined g)) with hall | ⟨taken, g', behind, rfl, htaken, hg'⟩
      · exact .inl ⟨hend, hall⟩
      · refine .inr ⟨g :: taken, g', behind, rfl, ⟨hend, htaken⟩, ?_⟩
        rwa [shellAfter_inputs_cons hs]

/-- Groups that come to an end and do not leave the session. -/
theorem run_groups (hprimary : hasControl primary = false) (hs : s.pending = none) (hgroups : ∀ g ∈ groups, IsGroup g)
    (hstays : ∀ g ∈ groups, leaves g = false) (hend : AllEnd world look s groups) (rest : List Bytes) :
    run world look primary s (groups.flatten ++ rest) =
      (run world look primary (shellAfter world look s (inputs groups)) rest).after (transcript world look primary s groups) := by
  induction groups generalizing s with
  | nil => rfl
  | cons g groups ih =>
    obtain ⟨hg, hgroups⟩ := List.forall_mem_cons.mp hgroups
    obtain ⟨hstay, hstays⟩ := List.forall_mem_cons.mp hstays
    have hreading : (submit world look s (joined g)).status = .reading := by
      have hended := mt (submit_ended_iff world look s g).mp (by simp [hstay])
      cases hstatus : (submit world look s (joined g)).status with
      | reading => rfl
      | ended => exact absurd hstatus hended
      | unended => exact absurd hstatus hend.1
    rw [List.flatten_cons, List.append_assoc, run_group hprimary hs hg, Turn.after_andThen, Turn.andThen_of_reading hreading,
      ih (submit_pending world look s _) hgroups hstays hend.2, shellAfter_inputs_cons hs, Turn.after_after, Turn.after_after]
    rfl

theorem shellAfter_pending (hs : s.pending = none) (inputs : List Bytes) :
    (shellAfter world look s inputs).pending = none := by
  induction inputs generalizing s with
  | nil => exact hs
  | cons input inputs ih => exact ih rfl

theorem shellAfter_inputs_concat (hs : s.pending = none) (taken : List (List Bytes)) (g : List Bytes) :
    shellAfter world look s (inputs (taken ++ [g])) =
      (submit world look (shellAfter world look s (inputs taken)) (joined g)).shell := by
  induction taken generalizing s with
  | nil => exact shellAfter_inputs_cons hs g []
  | cons first taken ih =>
    rw [List.cons_append, shellAfter_inputs_cons hs, shellAfter_inputs_cons hs]
    exact ih (submit_pending world look s _)

theorem transcript_concat (hs : s.pending = none) (taken : List (List Bytes)) (g : List Bytes) :
    transcript world look primary s (taken ++ [g]) = transcript world look primary s taken ++
      (prompts primary g.length ++ (submit world look (shellAfter world look s (inputs taken)) (joined g)).outputs) := by
  induction taken generalizing s with
  | nil => simp [transcript, inputs, shellAfter]
  | cons first taken ih =>
    rw [List.cons_append, transcript, transcript, shellAfter_inputs_cons hs, ih (submit_pending world look s _)]
    simp only [List.append_assoc]

theorem AllEnd.of_append {taken behind : List (List Bytes)} (h : AllEnd world look s (taken ++ behind)) :
    AllEnd world look s taken := by
  induction taken generalizing s with
  | nil => trivial
  | cons g taken ih => exact ⟨h.1, ih h.2⟩

/-- Groups up to one after which no line is read. -/
theorem run_stops (hprimary : hasControl primary = false) (hs : s.pending = none) {taken : List (List Bytes)}
    (htaken : ∀ g ∈ taken, IsGroup g) (hstays : ∀ g ∈ taken, leaves g = false) (hend : AllEnd world look s taken)
    (hg : IsGroup g) {status : Status}
    (hstatus : (submit world look (shellAfter world look s (inputs taken)) (joined g)).status = status)
    (hstop : status ≠ .reading) (rest : List Bytes) :
    run world look primary s (taken.flatten ++ (g ++ rest)) =
      ⟨shellAfter world look s (inputs (taken ++ [g])), transcript world look primary s (taken ++ [g]), status⟩ := by
  subst hstatus
  rw [run_groups hprimary hs htaken hstays hend, run_group hprimary (shellAfter_pending hs _) hg, Turn.after_andThen,
    Turn.andThen_of_ne hstop, Turn.after_after, shellAfter_inputs_concat hs, transcript_concat hs, ← List.append_assoc]
  rfl

/-- No group leaves the session if another comes after it. -/
theorem Division.stays_before {taken behind : List (List Bytes)} (h : Division lines (taken ++ g :: behind) left) :
    ∀ g' ∈ taken, leaves g' = false := by
  intro g' hg'
  refine h.stays g' ?_
  rw [List.dropLast_append_of_ne_nil (List.cons_ne_nil _ _)]
  exact List.mem_append_left _ hg'

theorem Division.all_stay (h : Division lines groups left) (hlast : groups.getLast?.any leaves = false) :
    ∀ g ∈ groups, leaves g = false := by
  rcases List.eq_nil_or_concat' groups with rfl | ⟨taken, g, rfl⟩
  · exact List.forall_mem_nil _
  · rw [List.getLast?_concat] at hlast
    exact List.forall_mem_append.mpr ⟨h.stays_before, List.forall_mem_singleton.mpr hlast⟩

/-- All groups come to an end, and so does the session. -/
theorem run_of_allEnd (hprimary : hasControl primary = false) (hs : s.pending = none) (h : Division lines groups left)
    (hend : AllEnd world look s groups) :
    run world look primary s lines =
      ⟨{ shellAfter world look s (inputs groups) with
          pending := if groups.getLast?.any leaves then none else pendingOf left },
        transcript world look primary s groups ++ (if groups.getLast?.any leaves then [] else farewell primary left),
        .ended⟩ := by
  cases hlast : groups.getLast?.any leaves with
  | false =>
    generalize hlater : shellAfter world look s (inputs groups) = later
    have hpending : later.pending = pendingOf [] := hlater ▸ shellAfter_pending hs _
    have hrest : run world look primary { later with pending := pendingOf [] } left = _ :=
      run_open hprimary [] (h.isOpen hlast)
    rw [← hpending] at hrest
    rw [h.whole, run_groups hprimary hs h.isGroup (h.all_stay hlast) hend, hlater, hrest, farewell, prompts,
      List.range_eq_range']
    rfl
  | true =>
    obtain ⟨taken, g, rfl⟩ : ∃ taken g, groups = taken ++ [g] := by
      rcases List.eq_nil_or_concat' groups with rfl | hconcat
      · cases hlast
      · exact hconcat
    obtain ⟨htaken, hg⟩ := List.forall_mem_append.mp h.isGroup
    rw [List.getLast?_concat] at hlast
    have hpending : (shellAfter world look s (inputs (taken ++ [g]))).pending = none := shellAfter_pending hs _
    have hwhole : lines = taken.flatten ++ (g ++ left) := by simp [h.whole]
    rw [hwhole, run_stops hprimary hs htaken h.stays_before hend.of_append (List.forall_mem_singleton.mp hg)
      ((submit_ended_iff world look _ g).mpr hlast) (by simp) left]
    simp [← hpending]

/-- A group does not come to an end, and no line behind it is read. -/
theorem run_of_unended (hprimary : hasControl primary = false) (hs : s.pending = none) {taken behind : List (List Bytes)}
    (h : Division lines (taken ++ g :: behind) left) (hend : AllEnd world look s taken)
    (hg : (submit world look (shellAfter world look s (inputs taken)) (joined g)).status = .unended) :
    run world look primary s lines =
      ⟨shellAfter world look s (inputs (taken ++ [g])), transcript world look primary s (taken ++ [g]), .unended⟩ := by
  obtain ⟨htaken, hbehind⟩ := List.forall_mem_append.mp h.isGroup
  have hwhole : lines = taken.flatten ++ (g ++ (behind.flatten ++ left)) := by simp [h.whole]
  rw [hwhole]
  exact run_stops hprimary hs htaken h.stays_before hend (hbehind g List.mem_cons_self) hg (by simp) _

/-- If the first prompt cannot be shown, no line is read. -/
theorem run_unshown (hprimary : hasControl primary = true) (hs : s.pending = none) (lines : List Bytes) :
    run world look primary s lines = ⟨s, [.out (utf8 "\n")], .ended⟩ := by
  have hprompt : s.prompt? primary = none := by
    rw [prompt?, prompt, hs]
    exact if_pos hprimary
  cases lines with
  | nil =>
    rw [run, turn, hprompt]
    rfl
  | cons line lines =>
    rw [run, turn, hprompt]
    rfl

end

/-! ## The bound -/

section

variable {world : World} {look : Appearance} {session : Session} {more : Nat}

theorem runCode_bound {source : Bytes} (hle : world.fuel ≤ more) (hend : (runCode world look session source).status ≠ .unended) :
    runCode { world with fuel := more } look session source = runCode world look session source := by
  have hended : (session.run world.fuel world.clock source).1.result ≠ .exhausted := fun hresult => hend (if_pos hresult)
  unfold runCode
  dsimp only
  rw [Session.run_bound hle hended]
  rfl

theorem evaluate_bound {input : Bytes} (hle : world.fuel ≤ more) (hend : (evaluate world look session input).status ≠ .unended) :
    evaluate { world with fuel := more } look session input = evaluate world look session input := by
  unfold evaluate at hend ⊢
  cases hcommand : Command.ofText input with
  | code text =>
    rw [hcommand] at hend
    exact runCode_bound hle hend
  | load path =>
    have hread : World.readScript { world with fuel := more } path = world.readScript path := rfl
    rw [hcommand] at hend
    simp only [obey, hread] at hend ⊢
    by_cases hpath : path.isEmpty = true
    · rw [if_pos hpath, if_pos hpath]
    · rw [if_neg hpath] at hend
      rw [if_neg hpath, if_neg hpath]
      cases hfile : world.readScript path with
      | error e => rfl
      | ok source =>
        rw [hfile] at hend
        exact runCode_bound hle hend
  | _ => rfl

/-- An input that ends within a bound ends in the same way within a larger one. -/
theorem submit_bound {s : Shell} {input : Bytes} (hle : world.fuel ≤ more)
    (hend : (submit world look s input).status ≠ .unended) :
    submit { world with fuel := more } look s input = submit world look s input := by
  unfold submit at hend ⊢
  by_cases hblank : (Text.trim input).isEmpty = true
  · rw [if_pos hblank, if_pos hblank]
  · rw [if_neg hblank] at hend
    have hlater : (world.later s.readings).fuel ≤ more := hle
    have heffect : evaluate ({ world with fuel := more }.later s.readings) look s.session input =
        evaluate (world.later s.readings) look s.session input := evaluate_bound hlater hend
    rw [if_neg hblank, if_neg hblank, heffect]

theorem turn_bound {primary : Bytes} {s : Shell} {next : Option Bytes} (hle : world.fuel ≤ more)
    (hend : (turn world look primary s next).status ≠ .unended) :
    turn { world with fuel := more } look primary s next = turn world look primary s next := by
  have hheard (next : Option Bytes) (hend : (hear world look s next).status ≠ .unended) :
      hear { world with fuel := more } look s next = hear world look s next := by
    cases next with
    | none => rfl
    | some line =>
      simp only [hear, feed] at hend ⊢
      by_cases hopen : 0 < Brackets.count (extend s.pending line)
      · rw [if_pos hopen, if_pos hopen]
      · rw [if_neg hopen] at hend
        rw [if_neg hopen, if_neg hopen]
        exact submit_bound hle hend
  unfold turn
  dsimp only
  rw [hheard _ hend]

/-- A session that comes to its end is the same with every larger bound. -/
theorem run_bound {primary : Bytes} {s : Shell} {lines : List Bytes} (hle : world.fuel ≤ more)
    (hend : (run world look primary s lines).status ≠ .unended) :
    run { world with fuel := more } look primary s lines = run world look primary s lines := by
  induction lines generalizing s with
  | nil => exact turn_bound hle hend
  | cons line rest ih =>
    rw [run] at hend
    by_cases hreading : (turn world look primary s (some line)).status = .reading
    · have hfirst : turn { world with fuel := more } look primary s (some line) = turn world look primary s (some line) :=
        turn_bound hle (by simp [hreading])
      rw [Turn.andThen_of_reading hreading] at hend
      rw [run, run, hfirst, Turn.andThen_of_reading hreading, Turn.andThen_of_reading hreading, ih hend]
    · rw [Turn.andThen_of_ne hreading] at hend
      rw [run, run, turn_bound hle hend, Turn.andThen_of_ne hreading, Turn.andThen_of_ne hreading]

end

/-- Lines have one division into groups. A run over them shows the first prompt before the
first line of each group and the other one before its other lines, and evaluates the texts of
the groups that are not blank, in order. If all come to an end, it ends when a group leaves the
session, or else after one more prompt, and no larger bound changes it. Otherwise it stops at the
first that does not, and reads no line behind it. If the first prompt cannot be shown, no line is
read at all. -/
theorem lines_taken_in_groups (world : World) (look : Appearance) (primary : Bytes) {s : Shell} (hs : s.pending = none)
    (lines : List Bytes) :
    (∃! d : List (List Bytes) × List Bytes, Division lines d.1 d.2) ∧
    (hasControl primary = false → ∀ groups left, Division lines groups left →
      (AllEnd world look s groups ∧
        run world look primary s lines =
          ⟨{ shellAfter world look s (inputs groups) with
              pending := if groups.getLast?.any leaves then none else pendingOf left },
            transcript world look primary s groups ++ (if groups.getLast?.any leaves then [] else farewell primary left),
            .ended⟩) ∨
      ∃ taken g behind, groups = taken ++ g :: behind ∧ AllEnd world look s taken ∧
        (submit world look (shellAfter world look s (inputs taken)) (joined g)).status = .unended ∧
        run world look primary s lines =
          ⟨shellAfter world look s (inputs (taken ++ [g])), transcript world look primary s (taken ++ [g]), .unended⟩) ∧
    (hasControl primary = true → run world look primary s lines = ⟨s, [.out (utf8 "\n")], .ended⟩) ∧
    ((run world look primary s lines).status ≠ .unended → ∀ more, world.fuel ≤ more →
      run { world with fuel := more } look primary s lines = run world look primary s lines) := by
  refine ⟨?_, fun hprimary groups left h => ?_, fun hprimary => run_unshown hprimary hs lines,
    fun hend more hle => run_bound hle hend⟩
  · obtain ⟨groups, left, h⟩ := exists_division lines
    refine ⟨(groups, left), h, fun d hd => ?_⟩
    obtain ⟨hgroups, hleft⟩ := hd.unique h
    exact Prod.ext hgroups hleft
  · rcases allEnd_or hs groups with hend | ⟨taken, g, behind, rfl, hend, hg⟩
    · exact .inl ⟨hend, run_of_allEnd hprimary hs h hend⟩
    · exact .inr ⟨taken, g, behind, rfl, hend, hg, run_of_unended hprimary hs h hend hg⟩

/-- Lines with a group of three lines and one that is blank, and a line after the end. -/
def visit : List Bytes := [utf8 "\x7b", utf8 "print \"(", utf8 "\"; \x7d", utf8 " ", utf8 ":quit", utf8 "("]

def quietWorld : World where
  workingDirectory := utf8 "/"
  home := none
  time := []
  clock := fun _ => 0
  fuel := 100
  read := fun path => .error ⟨path, .missing⟩

theorem visit_division : Division visit [visit.take 3, [utf8 " "], [utf8 ":quit"]] [utf8 "("] := by
  have hblock : IsGroup (visit.take 3) := by
    have hfirst : IsOpen [utf8 "\x7b"] := isOpen_nil.concat (by decide +kernel)
    exact (hfirst.concat (by decide +kernel)).group (by decide +kernel)
  have hblank : IsGroup [utf8 " "] := isOpen_nil.group (by decide +kernel)
  have hquit : IsGroup [utf8 ":quit"] := isOpen_nil.group (by decide +kernel)
  refine (division_stays (by decide +kernel)).mpr ⟨hblock, _, rfl, ?_⟩
  refine (division_stays (by decide +kernel)).mpr ⟨hblank, _, rfl, ?_⟩
  exact (division_leaves (by decide +kernel)).mpr ⟨hquit, rfl, rfl⟩

def stuckVisit : List Bytes := [utf8 "while (true) \x7b\x7d", utf8 "print \"a\";"]

theorem stuckVisit_division : Division stuckVisit [stuckVisit.take 1, stuckVisit.drop 1] [] := by
  have hloop : IsGroup (stuckVisit.take 1) := isOpen_nil.group (by decide +kernel)
  have hprint : IsGroup (stuckVisit.drop 1) := isOpen_nil.group (by decide +kernel)
  refine (division_stays (by decide +kernel)).mpr ⟨hloop, _, rfl, ?_⟩
  refine (division_stays (by decide +kernel)).mpr ⟨hprint, [], rfl, ?_⟩
  exact division_nil.mpr ⟨rfl, isOpen_nil⟩

theorem lines_taken_in_groups_visit :
    Division visit [visit.take 3, [utf8 " "], [utf8 ":quit"]] [utf8 "("] ∧
    inputs [visit.take 3, [utf8 " "], [utf8 ":quit"]] = [joined (visit.take 3), utf8 ":quit"] ∧
    (run quietWorld {} (utf8 "> ") {} visit).outputs =
      [.out (utf8 "> "), .out (utf8 "... "), .out (utf8 "... "), .out (utf8 "(\n\n"), .out (utf8 "> "), .out (utf8 "> ")] ∧
    (run quietWorld {} (utf8 "> ") {} stuckVisit).outputs = [.out (utf8 "> ")] := by
  have hprompt : hasControl (utf8 "> ") = false := by decide +kernel
  have hs : ({} : Shell).pending = none := rfl
  refine ⟨visit_division, by decide +kernel, ?_, ?_⟩
  · have hended : (run quietWorld {} (utf8 "> ") {} visit).status = .ended := by decide +kernel
    rcases (lines_taken_in_groups quietWorld {} (utf8 "> ") hs visit).2.1 hprompt _ _ visit_division with
      ⟨-, hrun⟩ | ⟨_, _, _, -, -, -, hrun⟩
    · rw [hrun]
      decide +kernel
    · rw [hrun] at hended
      cases hended
  · have hstuck : (submit quietWorld {} {} (joined (stuckVisit.take 1))).status = .unended := by decide +kernel
    rcases (lines_taken_in_groups quietWorld {} (utf8 "> ") hs stuckVisit).2.1 hprompt _ _ stuckVisit_division with
      ⟨hend, -⟩ | ⟨taken, g, behind, hgroups, hend, -, hrun⟩
    · exact absurd hstuck hend.1
    · cases taken with
      | nil =>
        obtain ⟨rfl, -⟩ := List.cons.inj hgroups
        rw [hrun]
        decide +kernel
      | cons first taken =>
        obtain ⟨rfl, -⟩ := List.cons.inj hgroups
        exact absurd hstuck hend.1

end Shell

end Lox
