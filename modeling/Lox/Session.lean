/-
  Lox.Session — running texts one after the other on the same globals. Each step leaves a
  transcript: what was printed, reported and logged, in order. Nothing runs if a text has a
  static fault.
-/

import Lox.Eval
import Lox.Token.Scan
import Lox.Tree.Parser.Statement

namespace Lox

inductive LogEvent where
  | scanFinished (tokens lines : Nat)
  | parseFinished (statements errors : Nat)
  | runFinished (statements : Nat)
  | runAborted (error : RuntimeError)
  deriving DecidableEq, Repr

inductive LogValue where
  | count (n : Nat)
  | text (s : Bytes)
  deriving DecidableEq, Repr

namespace LogEvent

def message : LogEvent → String
  | .scanFinished _ _ => "scan finished"
  | .parseFinished _ _ => "parse finished"
  | .runFinished _ => "interpret finished"
  | .runAborted _ => "interpret aborted"

def fields (e : LogEvent) : List (String × LogValue) :=
  ("component", .text (utf8 "interpreter")) ::
    match e with
    | .scanFinished tokens lines => [("lines", .count lines), ("tokens", .count tokens)]
    | .parseFinished statements errors => [("errors", .count errors), ("statements", .count statements)]
    | .runFinished statements => [("statements", .count statements)]
    | .runAborted error => [("error", .text error.fault.message), ("line", .count error.line)]

end LogEvent

inductive Event where
  | printed (text : Bytes)
  | reported (report : Report)
  | logged (entry : LogEvent)
  deriving DecidableEq, Repr

namespace Event

def printed? : Event → Option Bytes
  | .printed text => some text
  | _ => none

def reported? : Event → Option Report
  | .reported report => some report
  | _ => none

def logged? : Event → Option LogEvent
  | .logged entry => some entry
  | _ => none

end Event

inductive Result where
  | done
  | staticFaults (count : Nat)
  | failed (error : RuntimeError)
  | exhausted
  deriving DecidableEq, Repr

namespace Result

/-- The exit code of the process for a result; none while it is still running. -/
def exitCode? : Result → Option Nat
  | .done => some 0
  | .staticFaults _ => some 65
  | .failed _ => some 70
  | .exhausted => none

def message? : Result → Option Bytes
  | .done => none
  | .staticFaults n => some (utf8 "static errors reported: " ++ Text.decimal n ++ utf8 " error(s)")
  | .failed e => some e.text
  | .exhausted => none

end Result

structure Analysis where
  statements : List Stmt
  reports : List Report
  events : List Event
  /-- How many errors have been counted. -/
  errors : Nat

/-- The parser goes on counting where the scanner left off. -/
def analyze (source : Bytes) : Analysis :=
  let scanned := scan source
  let parsed := parse scanned.tokens scanned.endLine scanned.errors
  { statements := parsed.statements
    reports := scanned.reports ++ parsed.reports
    events := scanned.reports.map .reported
      ++ [.logged (.scanFinished (scanned.tokens.length + 1) scanned.endLine)]
      ++ parsed.reports.map .reported
      ++ [.logged (.parseFinished parsed.statements.length parsed.errors)]
    errors := parsed.errors }

/-- The result of a step that counted so many errors and ran nothing. -/
def staticResult (errors : Nat) : Result := if errors = 0 then .done else .staticFaults errors

structure Step (α : Type) where
  output : α
  events : List Event
  result : Result
  /-- How often the clock was read. -/
  readings : Nat := 0

namespace Step

variable {α : Type}

def printed (s : Step α) : List Bytes := s.events.filterMap Event.printed?

def reports (s : Step α) : List Report := s.events.filterMap Event.reported?

def logs (s : Step α) : List LogEvent := s.events.filterMap Event.logged?

end Step

structure Session where
  heap : Heap

namespace Session

def fresh : Session := ⟨Heap.initial⟩

def tokens (source : Bytes) : Step (List Bytes) :=
  let scanned := scan source
  { output := scanned.dump
    events := scanned.reports.map .reported
      ++ [.logged (.scanFinished (scanned.tokens.length + 1) scanned.endLine)]
    result := staticResult scanned.errors }

/-- The syntax tree of a text, empty if the text has a fault. -/
def tree (source : Bytes) : Step Bytes :=
  let analysis := analyze source
  { output := if analysis.errors = 0 then renderProgram analysis.statements else []
    events := analysis.events
    result := staticResult analysis.errors }

def execute (session : Session) (fuel : Nat) (clock : Nat → Float) (statements : List Stmt) :
    Step Unit × Session :=
  let (outcome, m) := execProgram fuel statements { heap := session.heap, clock }
  let printed := m.printed.toList.map Event.printed
  let step := match outcome with
    | .ok () => ⟨(), printed ++ [.logged (.runFinished statements.length)], .done, m.readings⟩
    | .error (.fault e) => ⟨(), printed ++ [.reported e.report, .logged (.runAborted e)], .failed e, m.readings⟩
    | .error .exhausted => ⟨(), printed, .exhausted, m.readings⟩
  (step, ⟨m.heap⟩)

/-- Runs a text unless it has a static fault. -/
def run (session : Session) (fuel : Nat) (clock : Nat → Float) (source : Bytes) : Step Unit × Session :=
  let analysis := analyze source
  if analysis.errors = 0 then
    let (step, next) := session.execute fuel clock analysis.statements
    ({ step with events := analysis.events ++ step.events }, next)
  else
    ({ output := (), events := analysis.events, result := staticResult analysis.errors }, session)

end Session

end Lox
