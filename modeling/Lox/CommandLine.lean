/-
  Lox.CommandLine — the whole program: flags, configuration, then a text to run or an
  interactive session.
-/

import Lox.Config
import Lox.Flags
import Lox.Shell

namespace Lox

/-- What a process has written, and the code that it has ended with, if it has ended. -/
structure Exit where
  code : Option Nat
  outputs : List Output := []

namespace CommandLine

def usageCode : Nat := 64

def noInputCode : Nat := 66

def configCode : Nat := 78

inductive Source where
  | code (text : Bytes)
  | script (path : Bytes)
  | interactive
  deriving DecidableEq, Repr

structure Request where
  options : Options
  source : Source
  deriving DecidableEq, Repr

/-- Reads the arguments. A text and a script exclude each other, and there is at most one
script. -/
def request (args : List Bytes) : Except Exit Request :=
  let usage : Except Exit Request := .error ⟨some usageCode, [.err Flags.usage]⟩
  match Flags.parse {} args with
  | .error .help => .error ⟨some 0, [.err Flags.usage]⟩
  | .error fault => .error ⟨some usageCode, [.err ((fault.message?.getD []) ++ utf8 "\n" ++ Flags.usage)]⟩
  | .ok (options, rest) =>
    match rest with
    | [] => .ok ⟨options, if options.code.isEmpty then .interactive else .code options.code⟩
    | [path] => if options.code.isEmpty then .ok ⟨options, .script path⟩ else usage
    | _ => usage

/-- The configuration file to load, and whether it was asked for. -/
def configPath (home : Option Bytes) (options : Options) : Bytes × Bool :=
  if options.configPath.isEmpty then (Config.defaultPath home, false) else (options.configPath, true)

structure Setup where
  request : Request
  config : Config
  look : Appearance
  /-- What has been written on the way. -/
  outputs : List Output

def setup (world : World) (request : Request) : Except Exit Setup :=
  let options := request.options
  let (path, explicit) := configPath world.home options
  match Config.load world.home world.read path explicit with
  | .error e => .error ⟨some configCode, [.err (e.text ++ utf8 "\n")]⟩
  | .ok config =>
    let levelText := if options.logLevel.isEmpty then config.logLevel else options.logLevel
    let color := config.color && !options.noColor
    match LogLevel.ofText? levelText with
    | none =>
      .error ⟨some configCode, [.err (utf8 "not a valid logrus Level: " ++ Text.quote levelText ++ utf8 "\n")]⟩
    | some level =>
      let loaded := Log.line world.time "configuration loaded" [("config", path)]
      .ok {
        request
        config := { config with logLevel := levelText, color }
        look := ⟨if color && world.terminal then .colored else .plain, level⟩
        outputs := if level.showsDebug then [.err loaded] else [] }

def runText (world : World) (s : Setup) (source : Bytes) : Exit :=
  if s.request.options.tokens then
    let step := Session.tokens source
    ⟨step.result.exitCode?, step.outputs world s.look ++ [.out (Text.unlines step.output)]⟩
  else if s.request.options.tree then
    let step := Session.tree source
    ⟨step.result.exitCode?, step.outputs world s.look ++ [.out step.output]⟩
  else
    let (step, _) := Session.fresh.run world.fuel world.clock source
    ⟨step.result.exitCode?, step.outputs world s.look⟩

def runScript (world : World) (s : Setup) (path : Bytes) : Exit :=
  match world.readScript path with
  | .error e => ⟨some noInputCode, [.err (Diagnostics.errorLine s.look.style e.text)]⟩
  | .ok source => runText world s source

def openShell (world : World) (s : Setup) : Shell :=
  let path := s.config.historyFile
  let history := if path.isEmpty then {} else
    match world.read path with
    | .ok content => History.ofText content
    | .error _ => {}
  { history }

def historyFile? (s : Setup) (shell : Shell) : Option (Bytes × Bytes) :=
  if s.config.historyFile.isEmpty then none else some (s.config.historyFile, shell.history.toText)

/-- How the process ends with its session, and what is written then. -/
def leave (s : Setup) (last : Shell.Turn) : Exit × Option (Bytes × Bytes) :=
  if last.status = .unended then (⟨none, last.outputs⟩, none)
  else (⟨some 0, last.outputs⟩, historyFile? s last.shell)

/-- Runs the program on these arguments and this input. The second result is a file to write
at the end. -/
def run (world : World) (args : List Bytes) (input : Bytes) : Exit × Option (Bytes × Bytes) :=
  match request args with
  | .error exit => (exit, none)
  | .ok asked =>
    match setup world asked with
    | .error exit => (exit, none)
    | .ok s =>
      let after := fun (exit : Exit) => Exit.mk exit.code (s.outputs ++ exit.outputs)
      match asked.source with
      | .code text => (after (runText world s text), none)
      | .script path => (after (runScript world s path), none)
      | .interactive =>
        let last := (openShell world s).run world s.look s.config.prompt (Text.lines input)
        let (exit, written) := leave s (last.after [.out Shell.banner])
        (after exit, written)

end CommandLine

end Lox
