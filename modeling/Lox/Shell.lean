/-
  Lox.Shell — the interactive session. Lines are collected until no bracket is open; the
  text so far is then run, or obeyed if it is a command. Texts that are blank are skipped,
  all others are recorded. A text that does not come to an end holds up the session: no line
  behind it is read.
-/

import Lox.Brackets
import Lox.Diagnostics
import Lox.Files
import Lox.History
import Lox.Log
import Lox.Text.Blank
import Lox.Text.Control

namespace Lox

/-- What goes to the two output streams, in order. -/
inductive Output where
  | out (text : Bytes)
  | err (text : Bytes)
  deriving DecidableEq, Repr

namespace Output

def out? : Output → Option Bytes
  | .out text => some text
  | .err _ => none

def err? : Output → Option Bytes
  | .out _ => none
  | .err text => some text

def allOut (outputs : List Output) : Bytes := (outputs.filterMap out?).flatten

def allErr (outputs : List Output) : Bytes := (outputs.filterMap err?).flatten

end Output

/-- Everything around the program that its answers depend on. -/
structure World where
  workingDirectory : Bytes
  home : Option Bytes
  /-- Can the terminal show colors? -/
  terminal : Bool := false
  /-- The time that log lines show. -/
  time : Bytes
  clock : Nat → Float
  /-- Bounds how long a program may run. -/
  fuel : Nat
  read : Bytes → Except ReadError Bytes

def World.later (world : World) (readings : Nat) : World :=
  { world with clock := fun n => world.clock (readings + n) }

structure Appearance where
  style : Style := .plain
  level : LogLevel := .warn

/-- The outputs that an event calls for. -/
def Event.outputs (world : World) (look : Appearance) : Event → List Output
  | .printed text => [.out (text ++ utf8 "\n")]
  | .reported report => [.err (report.text look.style)]
  | .logged entry => if look.level.showsDebug then [.err (Log.eventLine world.time entry)] else []

def Step.outputs {α : Type} (world : World) (look : Appearance) (s : Step α) : List Output :=
  s.events.flatMap (Event.outputs world look)

def World.readScript (world : World) (path : Bytes) : Except ReadError Bytes :=
  world.read (Path.absolute world.workingDirectory path)

namespace Shell

def banner : Bytes := utf8 "rpdc interactive mode. Type :help for commands, :quit to leave.\n"

def continuationPrompt : Bytes := utf8 "... "

def help : Bytes := utf8 (
  ":help           show this message\n" ++
  ":quit, :exit    leave the session\n" ++
  ":load <file>    run a script in the current session\n" ++
  ":reset          drop every global definition\n" ++
  ":tokens <code>  print the tokens of code\n" ++
  ":ast <code>     print the syntax tree of code\n")

inductive Command where
  | code (text : Bytes)
  | quit
  | help
  | reset
  | load (path : Bytes)
  | tokens (text : Bytes)
  | tree (text : Bytes)
  | unknown (name : Bytes)
  deriving DecidableEq, Repr

/-- A command starts with a colon; its name ends at the first blank or tab. -/
def Command.ofText (input : Bytes) : Command :=
  let trimmed := Text.trim input
  if trimmed.head? != some ':'.toUInt8 then .code input
  else
    let isGap := fun c : UInt8 => c == 32 || c == 9
    let name := trimmed.takeWhile (!isGap ·)
    let argument := Text.trim ((trimmed.dropWhile (!isGap ·)).drop 1)
    if name = utf8 ":quit" || name = utf8 ":exit" then .quit
    else if name = utf8 ":help" then .help
    else if name = utf8 ":reset" then .reset
    else if name = utf8 ":load" then .load argument
    else if name = utf8 ":tokens" then .tokens argument
    else if name = utf8 ":ast" then .tree argument
    else .unknown name

def Command.file? : Command → Option Bytes
  | .load path => if path.isEmpty then none else some path
  | _ => none

inductive Status where
  | reading
  | ended
  /-- The last input has not come to an end. -/
  | unended
  deriving DecidableEq, Repr

structure Effect where
  session : Session
  outputs : List Output := []
  status : Status := .reading
  /-- How often the clock was read. -/
  readings : Nat := 0

def runCode (world : World) (look : Appearance) (session : Session) (source : Bytes) : Effect :=
  let (step, next) := session.run world.fuel world.clock source
  { session := next
    outputs := step.outputs world look
    status := if step.result = .exhausted then .unended else .reading
    readings := step.readings }

def complain (look : Appearance) (session : Session) (message : Bytes) : Effect :=
  { session, outputs := [.err (Diagnostics.errorLine look.style message)] }

def obey (world : World) (look : Appearance) (session : Session) : Command → Effect
  | .code text => runCode world look session text
  | .quit => { session, status := .ended }
  | .help => { session, outputs := [.out help] }
  | .reset => { session := .fresh }
  | .load path =>
    if path.isEmpty then complain look session (utf8 "usage: :load <file>")
    else
      match world.readScript path with
      | .error e => complain look session e.text
      | .ok source => runCode world look session source
  | .tokens text =>
    let step := Session.tokens text
    { session, outputs := step.outputs world look ++ [.out (Text.unlines step.output)] }
  | .tree text =>
    let step := Session.tree text
    { session, outputs := step.outputs world look ++ [.out step.output] }
  | .unknown name =>
    complain look session (utf8 "unknown command " ++ name ++ utf8 ". Type :help for a list.")

def evaluate (world : World) (look : Appearance) (session : Session) (input : Bytes) : Effect :=
  obey world look session (Command.ofText input)

end Shell

structure Shell where
  session : Session := .fresh
  history : History := {}
  /-- The lines read since the last input was complete; they leave a bracket open. -/
  pending : Option Bytes := none
  /-- How often the clock has been read. -/
  readings : Nat := 0

namespace Shell

/-- The shell after a line or several, what was shown, and how the session goes on. -/
structure Turn where
  shell : Shell
  outputs : List Output := []
  status : Status := .reading

def Turn.after (t : Turn) (outputs : List Output) : Turn := { t with outputs := outputs ++ t.outputs }

/-- Goes on from where the turn ends, if the session is still reading. -/
def Turn.andThen (t : Turn) (next : Shell → Turn) : Turn :=
  if t.status = .reading then (next t.shell).after t.outputs else t

def extend (pending : Option Bytes) (line : Bytes) : Bytes :=
  match pending with
  | none => line
  | some text => text ++ Text.newline :: line

def prompt (s : Shell) (primary : Bytes) : Bytes := if s.pending.isSome then continuationPrompt else primary

def hasControl (text : Bytes) : Bool :=
  (Utf8.chars text).any fun
    | .point code _ => Text.isControl code
    | .stray _ => false

/-- The prompt. One with a control character cannot be shown, and then no line is read. -/
def prompt? (s : Shell) (primary : Bytes) : Option Bytes :=
  if hasControl (s.prompt primary) then none else some (s.prompt primary)

def submit (world : World) (look : Appearance) (s : Shell) (input : Bytes) : Turn :=
  if (Text.trim input).isEmpty then { shell := { s with pending := none } }
  else
    let effect := evaluate (world.later s.readings) look s.session input
    { shell := ⟨effect.session, s.history.record input, none, s.readings + effect.readings⟩
      outputs := effect.outputs
      status := effect.status }

def feed (world : World) (look : Appearance) (s : Shell) (line : Bytes) : Turn :=
  let text := extend s.pending line
  if 0 < Brackets.count text then { shell := { s with pending := some text } }
  else submit world look s text

/-- Takes in what is read after a prompt: a line, or the end of the lines. -/
def hear (world : World) (look : Appearance) (s : Shell) : Option Bytes → Turn
  | some line => feed world look s line
  | none => { shell := s, outputs := [.out (utf8 "\n")], status := .ended }

/-- Shows the prompt and takes in what comes next. If there is no prompt, nothing is read. -/
def turn (world : World) (look : Appearance) (primary : Bytes) (s : Shell) (next : Option Bytes) : Turn :=
  let prompt := s.prompt? primary
  (hear world look s (if prompt.isSome then next else none)).after (prompt.toList.map .out)

/-- Takes in lines until they or the session end, or an input does not. -/
def run (world : World) (look : Appearance) (primary : Bytes) (s : Shell) : List Bytes → Turn
  | [] => turn world look primary s none
  | line :: rest => (turn world look primary s (some line)).andThen (run world look primary · rest)

end Shell

end Lox
