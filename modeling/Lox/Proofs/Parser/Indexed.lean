/-
  Lox.Proofs.Parser.Indexed — parsing by index. The tokens stand in an array whose last entry
  is the end of the text, and a cursor says which one comes next. An entry that the array
  does not have puts an end to the whole run (`outOfRange`). Every parser can be run this
  way, step by step (`Steps.indexed`), and then does what it does on a list of tokens: it
  asks for no entry outside of the array and never moves back (`Steps.tracks`).
-/

import Lox.Proofs.Parser.Parallel
import Lox.Proofs.Parser.Steps

namespace Lox

inductive Entry where
  | token (t : Token)
  | eof (line : Nat)

/-- The tokens of a text and, as the last entry only, its end. -/
def entries (tokens : List Token) (endLine : Nat) : Array Entry := (tokens.map Entry.token ++ [Entry.eof endLine]).toArray

def Entry.faultAt (e : Entry) (fault : SyntaxFault) : Report :=
  match e with
  | .token t => Parser.faultAt t fault
  | .eof line => ⟨line, .atEnd, .syntactic fault⟩

def Entry.hasKind (e : Entry) (kind : TokenKind) : Bool :=
  match e with
  | .token t => t.kind == kind
  | .eof _ => false

def Entry.startsStatement : Entry → Bool
  | .token t => Parser.startsStatement t.kind
  | .eof _ => false

structure Cursor where
  /-- The index of the next token. -/
  current : Nat
  context : Context := {}

inductive IndexedOutcome (α : Type) where
  | read (a : α) (c : Cursor) (reports : List Report)
  | rejected (c : Cursor) (earlier : List Report) (reason : Report)
  | exhausted
  /-- An entry was asked for that the array does not have. -/
  | outOfRange

def IndexedOutcome.after {α : Type} (reports : List Report) : IndexedOutcome α → IndexedOutcome α
  | .read a c later => .read a c (reports ++ later)
  | .rejected c later reason => .rejected c (reports ++ later) reason
  | .exhausted => .exhausted
  | .outOfRange => .outOfRange

def Indexed (α : Type) : Type := Array Entry → Cursor → IndexedOutcome α

namespace Indexed

variable {α β : Type}

instance : Monad Indexed where
  pure a := fun _ c => .read a c []
  bind x f := fun entries c =>
    match x entries c with
    | .read a c' reports => (f a entries c').after reports
    | .rejected c' earlier reason => .rejected c' earlier reason
    | .exhausted => .exhausted
    | .outOfRange => .outOfRange

/-! ## Reading by index -/

def entry (index : Nat) : Indexed Entry := fun entries c =>
  match entries[index]? with
  | some e => .read e c []
  | none => .outOfRange

def cursor : Indexed Cursor := fun _ c => .read c c []

def moveTo (c : Cursor) : Indexed Unit := fun _ _ => .read () c []

def peek : Indexed Entry := do entry (← cursor).current

/-- The entry before the next one; there is none before the first. -/
def previous : Indexed Entry := do
  match (← cursor).current with
  | 0 => fun _ _ => .outOfRange
  | index + 1 => entry index

def isAtEnd : Indexed Bool := do
  match ← peek with
  | .token _ => return false
  | .eof _ => return true

/-- Moves on, but not past the end, and looks back. -/
def advance : Indexed Entry := do
  if ← isAtEnd then
    previous
  else
    let c ← cursor
    moveTo { c with current := c.current + 1 }
    previous

def check (kind : TokenKind) : Indexed Bool := do
  if ← isAtEnd then return false else return (← peek).hasKind kind

def atBodyEnd : Indexed Bool := do
  if ← check .rightBrace then return true else isAtEnd

def chosen (select : Token → Option α) (found : (t : Token) → (a : α) → select t = some a → Indexed β)
    (other : Indexed β) (t : Token) : Indexed β :=
  match h : select t with
  | none => other
  | some a => found t a h

def take (select : Token → Option α) (found : (t : Token) → (a : α) → select t = some a → Indexed β)
    (other : Indexed β) : Indexed β := do
  if ← isAtEnd then
    other
  else match ← peek with
    | .eof _ => other
    | .token t =>
      if (select t).isNone then
        other
      else match ← advance with
        | .eof _ => other
        | .token t => chosen select found other t

def report (r : Report) : Indexed Unit := fun _ c => .read () c [r]

def reportHere (fault : SyntaxFault) : Indexed Unit := do report ((← peek).faultAt fault)

def giveUp (r : Report) : Indexed α := fun _ c => .rejected c [] r

def reject (fault : SyntaxFault) : Indexed α := do giveUp ((← peek).faultAt fault)

def skip : Nat → Indexed Unit
  | 0 => fun _ _ => .exhausted
  | n + 1 => do
    if ← isAtEnd then
      return ()
    else if (← previous).hasKind .semicolon then
      return ()
    else if (← peek).startsStatement then
      return ()
    else
      let _ ← advance
      skip n

def synchronize : Indexed Unit := fun entries => (do let _ ← advance; skip entries.size : Indexed Unit) entries

def bracketed (enter leave : Context → Context) (x : Indexed α) : Indexed α := fun entries c =>
  match x entries { c with context := enter c.context } with
  | .read a c' reports => .read a { c' with context := leave c'.context } reports
  | .rejected c' earlier reason => .rejected { c' with context := leave c'.context } earlier reason
  | .exhausted => .exhausted
  | .outOfRange => .outOfRange

def recovering (x : Indexed Stmt) : Indexed (Option Stmt) := fun entries c =>
  match x entries c with
  | .read statement c' reports => .read (some statement) c' reports
  | .rejected c' earlier reason =>
    (synchronize >>= fun _ => pure none : Indexed (Option Stmt)) entries c' |>.after (earlier ++ [reason])
  | .exhausted => .exhausted
  | .outOfRange => .outOfRange

end Indexed

/-- A parser over an array: each of its steps reads by index. -/
def Parser.Steps.indexed {α : Type} {p : Parser α} : Steps p → Indexed α
  | .pure a => Pure.pure a
  | .bind d e => d.indexed >>= fun a => (e a).indexed
  | @ite _ _ _ c _ d e => if c then d.indexed else e.indexed
  | .exhausted => fun _ _ => .exhausted
  | .context => do return (← Indexed.cursor).context
  | .atEnd => Indexed.isAtEnd
  | .check kind => Indexed.check kind
  | .atBodyEnd => Indexed.atBodyEnd
  | .take? select => Indexed.take select (fun _ a _ => Pure.pure (some a)) (Pure.pure none)
  | @branch _ _ select _ d e => Indexed.take select (fun t a h => (d t a h).indexed) e.indexed
  | .reportAt t fault => Indexed.report (faultAt t fault)
  | .reportHere fault => Indexed.reportHere fault
  | .reject fault => Indexed.reject fault
  | .bracketed enter leave d => Indexed.bracketed enter leave d.indexed
  | .recovering d => Indexed.recovering d.indexed

namespace Indexed

variable {α β : Type}

/-! ## Runs -/

section

variable {ts : Array Entry} {c c' : Cursor} {a : α} {reports : List Report}

@[simp] theorem after_nil (out : IndexedOutcome α) : out.after [] = out := by cases out <;> rfl

theorem pure_run (a : α) : (pure a : Indexed α) ts c = .read a c [] := rfl

theorem bind_run (x : Indexed α) (f : α → Indexed β) :
    (x >>= f) ts c = match x ts c with
      | .read a c' reports => (f a ts c').after reports
      | .rejected c' earlier reason => .rejected c' earlier reason
      | .exhausted => .exhausted
      | .outOfRange => .outOfRange := rfl

theorem bind_read {x : Indexed α} {f : α → Indexed β} (h : x ts c = .read a c' []) :
    (x >>= f) ts c = f a ts c' := by
  rw [bind_run, h]
  exact after_nil _

theorem cursor_run (c : Cursor) : cursor ts c = .read c c [] := rfl

theorem moveTo_run (c' : Cursor) : moveTo c' ts c = .read () c' [] := rfl

theorem peek_run {e : Entry} (h : ts[c.current]? = some e) : peek ts c = .read e c [] := by
  rw [peek, bind_read (cursor_run c)]
  simp only [entry, h]

theorem previous_run {i : Nat} {e : Entry} (hc : c.current = i + 1) (h : ts[i]? = some e) :
    previous ts c = .read e c [] := by
  rw [previous, bind_read (cursor_run c)]
  simp only [hc, entry, h]

end

end Indexed

/-! ## The array and the list -/

section

variable {tokens : List Token} {endLine : Nat} {c : Cursor}

/-- The state of a parser over the list of tokens that stands where the cursor does. A cursor
counts no errors, so the count may be any. -/
def Cursor.state (tokens : List Token) (endLine errors : Nat) (c : Cursor) : ParserState :=
  ⟨tokens.drop c.current, endLine, c.context, errors⟩

theorem entries_end : (entries tokens endLine)[tokens.length]? = some (.eof endLine) := by
  simp [entries]

theorem entries_token {i : Nat} (h : i < tokens.length) : (entries tokens endLine)[i]? = some (.token tokens[i]) := by
  simp [entries, List.getElem?_append_left, h]

inductive Cursor.Next (tokens : List Token) (endLine : Nat) (c : Cursor) : Prop
  | eof : c.current = tokens.length → (entries tokens endLine)[c.current]? = some (.eof endLine) →
      tokens.drop c.current = [] → c.Next tokens endLine
  | token (t : Token) : c.current < tokens.length → (entries tokens endLine)[c.current]? = some (.token t) →
      tokens.drop c.current = t :: tokens.drop (c.current + 1) → c.Next tokens endLine

theorem Cursor.next (endLine : Nat) (h : c.current ≤ tokens.length) : c.Next tokens endLine := by
  rcases Nat.lt_or_eq_of_le h with hlt | heq
  · exact .token tokens[c.current] hlt (entries_token hlt) (List.drop_eq_getElem_cons hlt)
  · exact .eof heq (heq ▸ entries_end) (by rw [heq, List.drop_length])

theorem getElem_of_drop {i : Nat} {t : Token} {rest : List Token} (hi : i < tokens.length)
    (h : tokens.drop i = t :: rest) : tokens[i] = t := by
  rw [List.drop_eq_getElem_cons hi] at h
  exact (List.cons.inj h).1

variable {t : Token}

open Indexed

theorem isAtEnd_run {e : Entry} (h : (entries tokens endLine)[c.current]? = some e) :
    isAtEnd (entries tokens endLine) c = .read (match e with | .eof _ => true | .token _ => false) c [] := by
  rw [isAtEnd, bind_read (peek_run h)]
  cases e <;> rfl

theorem advance_run (h : (entries tokens endLine)[c.current]? = some (.token t)) :
    advance (entries tokens endLine) c = .read (.token t) { c with current := c.current + 1 } [] := by
  rw [advance, bind_read (isAtEnd_run h)]
  simp only [Bool.false_eq_true, if_false]
  rw [bind_read (cursor_run c), bind_read (moveTo_run _)]
  exact previous_run rfl h

/-- At the end, the last token is looked back at; there has to be one. -/
theorem advance_end (heq : c.current = tokens.length) (hpos : 0 < tokens.length)
    (h : (entries tokens endLine)[c.current]? = some (.eof endLine)) :
    ∃ e, advance (entries tokens endLine) c = .read e c [] := by
  rw [advance, bind_read (isAtEnd_run h)]
  have hlast : tokens.length - 1 < tokens.length := by omega
  exact ⟨_, previous_run (i := tokens.length - 1) (by omega) (entries_token hlast)⟩

/-- One round of the loop that skips ahead. -/
theorem skip_step {n : Nat} {last : Token} (hlast : previous (entries tokens endLine) c = .read (.token last) c [])
    (h : (entries tokens endLine)[c.current]? = some (.token t)) :
    skip (n + 1) (entries tokens endLine) c =
      if last.kind = .semicolon ∨ Parser.startsStatement t.kind = true then .read () c []
      else skip n (entries tokens endLine) { c with current := c.current + 1 } := by
  rw [skip, bind_read (isAtEnd_run h), if_neg Bool.false_ne_true, bind_read hlast]
  by_cases hsemi : last.kind = .semicolon
  · rw [if_pos (by simp [Entry.hasKind, hsemi]), if_pos (.inl hsemi), pure_run]
  · rw [if_neg (by simp [Entry.hasKind, hsemi]), bind_read (peek_run h)]
    by_cases hstarts : Parser.startsStatement t.kind = true
    · rw [if_pos (by exact hstarts), if_pos (.inr hstarts), pure_run]
    · rw [if_neg (by exact hstarts), if_neg (by simp [hsemi, hstarts]), bind_read (advance_run h)]

/-- The loop that skips ahead, started behind a token, does what `skipStatement` does. -/
theorem skip_run (endLine : Nat) {n i : Nat} (hn : tokens.length - c.current < n) (hc : c.current = i + 1) (hi : i < tokens.length) :
    ∃ c', skip n (entries tokens endLine) c = .read () c' [] ∧ c'.context = c.context ∧ c.current ≤ c'.current ∧
      c'.current ≤ tokens.length ∧ tokens.drop c'.current =
        if tokens[i].kind = .semicolon then tokens.drop c.current else Parser.skipStatement (tokens.drop c.current) := by
  induction n generalizing c i with
  | zero => omega
  | succ n ih =>
    have hle : c.current ≤ tokens.length := by omega
    rcases c.next endLine hle with ⟨heq, hentry, hrest⟩ | ⟨t, hlt, hentry, hrest⟩
    · refine ⟨c, ?_, rfl, Nat.le_refl _, hle, ?_⟩
      · rw [skip, bind_read (isAtEnd_run hentry)]
        rfl
      · rw [hrest]
        split <;> rfl
    · rw [skip_step (previous_run hc (entries_token hi)) hentry]
      by_cases hsemi : tokens[i].kind = .semicolon
      · rw [if_pos (.inl hsemi), if_pos hsemi]
        exact ⟨c, rfl, rfl, Nat.le_refl _, hle, rfl⟩
      rw [if_neg hsemi, hrest, Parser.skipStatement]
      by_cases hstarts : Parser.startsStatement t.kind = true
      · rw [if_pos (.inr hstarts), if_pos hstarts]
        exact ⟨c, rfl, rfl, Nat.le_refl _, hle, hrest⟩
      · obtain ⟨c', hrun, hcontext, hcle, hcle', hdrop⟩ := ih (c := { c with current := c.current + 1 }) (i := c.current)
          (by simp only; omega) rfl hlt
        rw [if_neg (by simp [hsemi, hstarts]), if_neg hstarts]
        rw [getElem_of_drop hlt hrest] at hdrop
        exact ⟨c', hrun, hcontext, Nat.le_of_succ_le hcle, hcle', hdrop⟩

/-- Recovery finds its way, also from the end, as long as there is a token at all. -/
theorem synchronize_run (endLine : Nat) (hc : c.current ≤ tokens.length) (hpos : 0 < tokens.length) :
    ∃ c', synchronize (entries tokens endLine) c = .read () c' [] ∧ c'.context = c.context ∧
      c'.current ≤ tokens.length ∧ (c.current < c'.current ∨ c.current = tokens.length ∧ c'.current = tokens.length) ∧
      tokens.drop c'.current = Parser.synchronize (tokens.drop c.current) := by
  have hsize : (entries tokens endLine).size = tokens.length + 1 := by simp [entries]
  rcases c.next endLine hc with ⟨heq, hentry, hrest⟩ | ⟨t, hlt, hentry, hrest⟩
  · obtain ⟨e, hadvance⟩ := advance_end heq hpos hentry
    refine ⟨c, ?_, rfl, hc, .inr ⟨heq, heq⟩, by rw [hrest]; rfl⟩
    rw [synchronize, bind_read hadvance, hsize, skip, bind_read (isAtEnd_run hentry)]
    rfl
  · obtain ⟨c', hrun, hcontext, hcle, hcle', hdrop⟩ := skip_run (c := { c with current := c.current + 1 })
      endLine (n := tokens.length + 1) (i := c.current) (by simp only; omega) rfl hlt
    rw [getElem_of_drop hlt hrest] at hdrop
    refine ⟨c', ?_, hcontext, hcle', .inl hcle, by rw [hrest, Parser.synchronize, hdrop]⟩
    rw [synchronize, bind_read (advance_run hentry), hsize]
    exact hrun

end

/-! ## Steps over the array and over the list -/

/-- How the runs of a parser over the list and over the array end, started at a cursor. Both
get equally far and not back, and neither asks for an entry that is not there. -/
inductive Tracks (tokens : List Token) (endLine : Nat) (c : Cursor) {α : Type} :
    ParserOutcome α → IndexedOutcome α → Prop
  | read {a : α} {c' : Cursor} {reports : List Report} {e : Nat} : c.current ≤ c'.current → c'.current ≤ tokens.length →
      Tracks tokens endLine c (.read a (c'.state tokens endLine e) reports) (.read a c' reports)
  | rejected {c' : Cursor} {earlier : List Report} {reason : Report} {e : Nat} : c.current ≤ c'.current →
      c'.current ≤ tokens.length →
      Tracks tokens endLine c (.rejected (c'.state tokens endLine e) earlier reason) (.rejected c' earlier reason)
  | exhausted : Tracks tokens endLine c .exhausted .exhausted

namespace Tracks

open Indexed

variable {tokens : List Token} {endLine errors : Nat} {c c' : Cursor} {α β : Type}

theorem of_read {out' : IndexedOutcome α} {a : α} {s : ParserState} {reports : List Report}
    (h : Tracks tokens endLine c (.read a s reports) out') :
    ∃ c' errors, out' = .read a c' reports ∧ s = c'.state tokens endLine errors ∧ c.current ≤ c'.current ∧
      c'.current ≤ tokens.length := by
  cases h with
  | read h₁ h₂ => exact ⟨_, _, rfl, rfl, h₁, h₂⟩

theorem after {out : ParserOutcome α} {out' : IndexedOutcome α} (h : Tracks tokens endLine c' out out')
    (hc : c.current ≤ c'.current) (reports : List Report) :
    Tracks tokens endLine c (out.after reports) (out'.after reports) := by
  cases h with
  | read h₁ h₂ => exact .read (Nat.le_trans hc h₁) h₂
  | rejected h₁ h₂ => exact .rejected (Nat.le_trans hc h₁) h₂
  | exhausted => exact .exhausted

theorem mono {out : ParserOutcome α} {out' : IndexedOutcome α} (h : Tracks tokens endLine c' out out')
    (hc : c.current ≤ c'.current) : Tracks tokens endLine c out out' := by
  simpa using h.after hc []

/-- Two phrases in a row keep pace if each does from where the other stops. -/
theorem bind {p : Parser α} {g : α → Parser β} {x : Indexed α} {f : α → Indexed β}
    (hx : Tracks tokens endLine c (p (c.state tokens endLine errors)) (x (entries tokens endLine) c))
    (hf : ∀ a c' errors, c'.current ≤ tokens.length →
      Tracks tokens endLine c' (g a (c'.state tokens endLine errors)) (f a (entries tokens endLine) c')) :
    Tracks tokens endLine c ((p >>= g) (c.state tokens endLine errors)) ((x >>= f) (entries tokens endLine) c) := by
  rw [Parser.bind_run, Indexed.bind_run]
  generalize p (c.state tokens endLine errors) = out at hx
  generalize x (entries tokens endLine) c = out' at hx
  cases hx with
  | read h₁ h₂ => exact (hf _ _ _ h₂).after h₁ _
  | rejected h₁ h₂ => exact .rejected h₁ h₂
  | exhausted => exact .exhausted

theorem pure (a : α) (hc : c.current ≤ tokens.length) :
    Tracks tokens endLine c ((Pure.pure a : Parser α) (c.state tokens endLine errors))
      ((Pure.pure a : Indexed α) (entries tokens endLine) c) :=
  .read (Nat.le_refl _) hc

/-- A step that only looks. -/
theorem look {p : Parser α} {x : Indexed α} {a : α} {reports : List Report} {k : Nat} (hc : c.current ≤ tokens.length)
    (hp : p (c.state tokens endLine errors) = .read a (c.state tokens endLine k) reports)
    (hx : x (entries tokens endLine) c = .read a c reports) :
    Tracks tokens endLine c (p (c.state tokens endLine errors)) (x (entries tokens endLine) c) := by
  rw [hp, hx]
  exact .read (Nat.le_refl _) hc

theorem check_run (kind : TokenKind) (hc : c.current ≤ tokens.length) :
    Indexed.check kind (entries tokens endLine) c =
      .read ((tokens.drop c.current).head?.any (·.kind == kind)) c [] := by
  rcases c.next endLine hc with ⟨-, hentry, hrest⟩ | ⟨t, -, hentry, hrest⟩
  · rw [Indexed.check, bind_read (isAtEnd_run hentry), hrest]
    rfl
  · rw [Indexed.check, bind_read (isAtEnd_run hentry), if_neg Bool.false_ne_true, bind_read (peek_run hentry), hrest]
    rfl

theorem atEnd_run (hc : c.current ≤ tokens.length) :
    isAtEnd (entries tokens endLine) c = .read (tokens.drop c.current).isEmpty c [] := by
  rcases c.next endLine hc with ⟨-, hentry, hrest⟩ | ⟨t, -, hentry, hrest⟩
  · rw [isAtEnd_run hentry, hrest]
    rfl
  · rw [isAtEnd_run hentry, hrest]
    rfl

theorem atBodyEnd_run (hc : c.current ≤ tokens.length) :
    Indexed.atBodyEnd (entries tokens endLine) c =
      .read ((tokens.drop c.current).head?.all (·.kind == .rightBrace)) c [] := by
  rw [Indexed.atBodyEnd, bind_read (check_run _ hc)]
  cases hrest : tokens.drop c.current with
  | nil =>
    rw [if_neg (by simp), atEnd_run hc, hrest]
    rfl
  | cons t rest =>
    by_cases hk : t.kind = .rightBrace
    · rw [if_pos (by simp [hk])]
      simp [hk, Indexed.pure_run]
    · rw [if_neg (by simp [hk]), atEnd_run hc, hrest]
      simp [hk]

theorem chosen_some {select : Token → Option α} {found : (t : Token) → (a : α) → select t = some a → Indexed β}
    {other : Indexed β} {t : Token} {a : α} (h : select t = some a) : chosen select found other t = found t a h := by
  unfold chosen
  split
  · rename_i hnone
    cases h.symm.trans hnone
  · rename_i hsome
    cases h.symm.trans hsome
    rfl

/-- A token is taken from the array exactly where one is taken from the list. -/
theorem take {select : Token → Option α} {g : Option α → Parser β}
    {found : (t : Token) → (a : α) → select t = some a → Indexed β} {other : Indexed β}
    (hc : c.current ≤ tokens.length)
    (hfound : ∀ t a h c', c'.current ≤ tokens.length →
      Tracks tokens endLine c' (g (some a) (c'.state tokens endLine errors)) (found t a h (entries tokens endLine) c'))
    (hother : Tracks tokens endLine c (g none (c.state tokens endLine errors)) (other (entries tokens endLine) c)) :
    Tracks tokens endLine c ((Parser.take? select >>= g) (c.state tokens endLine errors))
      (Indexed.take select found other (entries tokens endLine) c) := by
  rcases c.next endLine hc with ⟨-, hentry, hrest⟩ | ⟨t, hlt, hentry, hrest⟩
  · have htake : Parser.take? select (c.state tokens endLine errors) = .read none (c.state tokens endLine errors) [] := by
      simp only [Parser.take?, Cursor.state, hrest]
    rw [Indexed.take, bind_read (isAtEnd_run hentry), Parser.bind_read htake, Parser.ParserOutcome.after_nil]
    exact hother
  · rw [Indexed.take, bind_read (isAtEnd_run hentry), if_neg Bool.false_ne_true, bind_read (peek_run hentry)]
    cases hselect : select t with
    | none =>
      have htake : Parser.take? select (c.state tokens endLine errors) = .read none (c.state tokens endLine errors) [] := by
        simp only [Parser.take?, Cursor.state, hrest, hselect]
      rw [Parser.bind_read htake, Parser.ParserOutcome.after_nil]
      simpa [hselect] using hother
    | some a =>
      have htake : Parser.take? select (c.state tokens endLine errors) =
          .read (some a) (Cursor.state tokens endLine errors { c with current := c.current + 1 }) [] := by
        simp only [Parser.take?, Cursor.state, hrest, hselect]
      rw [Parser.bind_read htake, Parser.ParserOutcome.after_nil]
      simp only [hselect, Option.isNone_some, Bool.false_eq_true, if_false]
      rw [bind_read (advance_run hentry)]
      simp only [chosen_some hselect]
      exact (hfound t a hselect { c with current := c.current + 1 } hlt).mono (Nat.le_succ _)

theorem faultAt_next {e : Entry} (fault : SyntaxFault) (hc : c.current ≤ tokens.length)
    (hentry : (entries tokens endLine)[c.current]? = some e) :
    e.faultAt fault = Parser.faultHere fault (c.state tokens endLine errors) := by
  rcases c.next endLine hc with ⟨-, hentry', hrest⟩ | ⟨t, -, hentry', hrest⟩
  · cases hentry.symm.trans hentry'
    simp only [Parser.faultHere, Cursor.state, hrest, Entry.faultAt]
  · cases hentry.symm.trans hentry'
    simp only [Parser.faultHere, Cursor.state, hrest, Entry.faultAt]

theorem peek_fault (endLine errors : Nat) (fault : SyntaxFault) (hc : c.current ≤ tokens.length) :
    ∃ e, peek (entries tokens endLine) c = .read e c [] ∧
      e.faultAt fault = Parser.faultHere fault (c.state tokens endLine errors) := by
  rcases c.next endLine hc with ⟨-, hentry, -⟩ | ⟨t, -, hentry, -⟩
  · exact ⟨_, peek_run hentry, faultAt_next fault hc hentry⟩
  · exact ⟨_, peek_run hentry, faultAt_next fault hc hentry⟩

theorem reportHere (fault : SyntaxFault) (hc : c.current ≤ tokens.length) :
    Tracks tokens endLine c (Parser.reportHere fault (c.state tokens endLine errors))
      (Indexed.reportHere fault (entries tokens endLine) c) := by
  obtain ⟨e, hpeek, hfault⟩ := peek_fault endLine errors fault hc
  rw [Indexed.reportHere, bind_read hpeek, hfault]
  exact .read (e := errors + 1) (Nat.le_refl _) hc

theorem reject (fault : SyntaxFault) (hc : c.current ≤ tokens.length) :
    Tracks tokens endLine c ((Parser.reject fault : Parser α) (c.state tokens endLine errors))
      ((Indexed.reject fault : Indexed α) (entries tokens endLine) c) := by
  obtain ⟨e, hpeek, hfault⟩ := peek_fault endLine errors fault hc
  rw [Indexed.reject, bind_read hpeek, hfault]
  exact .rejected (e := errors + 1) (Nat.le_refl _) hc

theorem bracketed {p : Parser α} {x : Indexed α} (enter leave : Context → Context)
    (h : Tracks tokens endLine { c with context := enter c.context }
      (p (Cursor.state tokens endLine errors { c with context := enter c.context }))
      (x (entries tokens endLine) { c with context := enter c.context })) :
    Tracks tokens endLine c (Parser.bracketed enter leave p (c.state tokens endLine errors))
      (Indexed.bracketed enter leave x (entries tokens endLine) c) := by
  unfold Parser.bracketed Indexed.bracketed
  generalize x (entries tokens endLine) { c with context := enter c.context } = out' at h
  have hstate : { c.state tokens endLine errors with context := enter (c.state tokens endLine errors).context } =
      Cursor.state tokens endLine errors { c with context := enter c.context } := rfl
  rw [hstate]
  generalize p (Cursor.state tokens endLine errors { c with context := enter c.context }) = out at h
  cases h with
  | @read a c' reports e h₁ h₂ =>
    exact @Tracks.read tokens endLine c _ a { c' with context := leave c'.context } _ e h₁ h₂
  | @rejected c' earlier reason e h₁ h₂ =>
    exact @Tracks.rejected tokens endLine c _ { c' with context := leave c'.context } _ _ e h₁ h₂
  | exhausted => exact .exhausted

/-- Recovery skips the same tokens on both sides. -/
theorem recovering {p : Parser Stmt} {x : Indexed Stmt} (hpos : 0 < tokens.length)
    (h : Tracks tokens endLine c (p (c.state tokens endLine errors)) (x (entries tokens endLine) c)) :
    Tracks tokens endLine c (Parser.recovering p (c.state tokens endLine errors))
      (Indexed.recovering x (entries tokens endLine) c) := by
  unfold Parser.recovering Indexed.recovering
  generalize x (entries tokens endLine) c = out' at h
  generalize p (c.state tokens endLine errors) = out at h
  cases h with
  | read h₁ h₂ => exact .read h₁ h₂
  | @rejected c' earlier reason e h₁ h₂ =>
    obtain ⟨c'', hrun, hcontext, hle, hmoved, hdrop⟩ := synchronize_run endLine h₂ hpos
    have hstate : { c'.state tokens endLine e with rest := Parser.synchronize (c'.state tokens endLine e).rest } =
        c''.state tokens endLine e := by
      simp only [Cursor.state, hcontext, hdrop]
    simp only [hstate]
    rw [bind_read hrun, Indexed.pure_run, IndexedOutcome.after, List.append_nil]
    exact .read (by omega) hle
  | exhausted => exact .exhausted

end Tracks

open Lox.Parser Indexed

/-- Whatever it is made of, a parser over an array with at least one token asks for no entry
that is not there, never moves back, and does what it does over the list. -/
theorem Parser.Steps.tracks {tokens : List Token} (endLine : Nat) (hpos : 0 < tokens.length) {α : Type} {p : Parser α}
    (d : Steps p) : ∀ (c : Cursor) (errors : Nat), c.current ≤ tokens.length →
      Tracks tokens endLine c (p (c.state tokens endLine errors)) (d.indexed (entries tokens endLine) c) := by
  induction d with
  | pure a => exact fun c _ hc => .pure a hc
  | bind d e ihd ihe => exact fun c errors hc => .bind (ihd c errors hc) fun a c' errors' hc' => ihe a c' errors' hc'
  | ite b d e ihd ihe =>
    intro c errors hc
    by_cases hb : b
    · simpa only [Steps.indexed, if_pos hb] using ihd c errors hc
    · simpa only [Steps.indexed, if_neg hb] using ihe c errors hc
  | exhausted => exact fun _ _ _ => .exhausted
  | context => exact fun c errors hc => .look (k := errors) hc rfl rfl
  | atEnd => exact fun c errors hc => .look (k := errors) hc rfl (Tracks.atEnd_run hc)
  | check kind => exact fun c errors hc => .look (k := errors) hc rfl (Tracks.check_run kind hc)
  | atBodyEnd => exact fun c errors hc => .look (k := errors) hc rfl (Tracks.atBodyEnd_run hc)
  | take? select =>
    intro c errors hc
    rw [← Parser.bind_pure_run (Parser.take? select)]
    exact .take hc (fun _ a _ _ hc' => .pure (some a) hc') (.pure none hc)
  | branch d e ihd ihe =>
    exact fun c errors hc => .take hc (fun t a h c' hc' => ihd t a h c' errors hc') (ihe c errors hc)
  | reportAt t fault => exact fun c errors hc => .look (k := errors + 1) hc rfl rfl
  | reportHere fault => exact fun c errors hc => .reportHere fault hc
  | reject fault => exact fun c errors hc => .reject fault hc
  | bracketed enter leave d ih =>
    exact fun c errors hc => .bracketed enter leave (ih { c with context := enter c.context } errors hc)
  | recovering d ih => exact fun c errors hc => .recovering hpos (ih c errors hc)

end Lox
