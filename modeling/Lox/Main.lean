/-
  Lox.Main — the program as a process: arguments, files, the terminal and the clock.
-/

import Lox.CommandLine
import Std.Time

namespace Lox.Process

/-- A file's name as the operating system takes it. -/
def toName (s : Bytes) : String :=
  (String.fromUTF8? ⟨s.toArray⟩).getD (String.ofList (s.map fun b => Char.ofNat b.toNat))

def ofByteArray (s : ByteArray) : Bytes := s.data.toList

def faultOf : IO.Error → FileFault
  | .inappropriateType _ code _ => if code = 20 then .notDirectory else .isDirectory
  | .invalidArgument _ code _ => if code = 36 then .nameTooLong else .invalidPath
  | _ => .missing

def readFile (path : Bytes) : IO (Except ReadError Bytes) := do
  match FileTree.pathFault? path with
  | some fault => return .error ⟨path, fault⟩
  | none =>
    try
      return .ok (ofByteArray (← IO.FS.readBinFile (toName path)))
    catch e => return .error ⟨path, faultOf e⟩

def writeFile (path content : Bytes) : IO Unit := do
  if (FileTree.pathFault? path).isSome then return ()
  try
    IO.FS.writeBinFile (toName path) ⟨content.toArray⟩
  catch _ => return ()

def emit (outputs : List Output) : IO Unit := do
  let stdout ← IO.getStdout
  let stderr ← IO.getStderr
  for output in outputs do
    match output with
    | .out text => stdout.write ⟨text.toArray⟩
    | .err text =>
      stdout.flush
      stderr.write ⟨text.toArray⟩
  stdout.flush

/-- The bytes up to a newline or the end; none at the end. -/
partial def readLine (stdin : IO.FS.Stream) (line : Bytes) : IO (Option Bytes) := do
  let next ← stdin.read 1
  match next.data.toList with
  | [] => return if line.isEmpty then none else some line.reverse
  | c :: _ =>
    if c = Text.newline then
      return some (if line.head? == some 13 then line.tail.reverse else line.reverse)
    else readLine stdin (c :: line)

def seconds : IO Float := do
  let now ← Std.Time.Timestamp.now
  return Float.ofInt now.toNanosecondsSinceUnixEpoch.val / 1000000000.0

def timeText : IO Bytes := do
  let now ← Std.Time.DateTime.now
  return utf8 (now.format "uuuu-MM-dd'T'HH:mm:ssXXX")

def fuel : Nat := 1000000000000000000

def tick : Float := 0.000001

/-- The world at this moment, with one file that can be read. Its clock has been read before, does
not go back, and moves with every reading. -/
def world (file : Except ReadError Bytes) (earliest : Float := 0) (readings : Nat := 0) : IO World := do
  let now := max (← seconds) earliest
  return {
    workingDirectory := utf8 (← IO.currentDir).toString
    home := (← IO.getEnv "HOME").bind fun h => if h.isEmpty then none else some (utf8 h)
    terminal := ← (← IO.getStderr).isTty
    time := ← timeText
    clock := fun n => now + (n - readings).toFloat * tick
    fuel
    read := fun _ => file }

def readScript (path : Bytes) : IO (Except ReadError Bytes) := do
  readFile (Path.absolute (utf8 (← IO.currentDir).toString) path)

def nothing : Except ReadError Bytes := .error ⟨[], .missing⟩

/-- Takes in a line or the end of the lines, for as long as that takes. -/
partial def hear (world : World) (look : Appearance) (shell : Shell) (next : Option Bytes) : IO Shell.Turn := do
  let t := shell.hear world look next
  if t.status = .unended then hear { world with fuel := 2 * world.fuel } look shell next else return t

/-- Reads and obeys lines until they or the session end. What the last turn shows is left to the caller. -/
partial def interact (s : CommandLine.Setup) (shell : Shell) (earliest : Float) : IO Shell.Turn := do
  let prompt := shell.prompt? s.config.prompt
  emit (prompt.toList.map .out)
  let next ← if prompt.isSome then readLine (← IO.getStdin) [] else pure none
  let command := next.map fun line => Shell.Command.ofText (Shell.extend shell.pending line)
  let file ← match command.bind Shell.Command.file? with
    | some path => readScript path
    | none => pure nothing
  let now ← world file earliest shell.readings
  let t ← hear now s.look shell next
  if t.status = .reading then
    emit t.outputs
    interact s t.shell (now.clock t.shell.readings)
  else return t

/-- Lets a run take as long as it takes, and ends the process with it. -/
partial def finish (world : World) (attempt : World → Exit) : IO UInt32 := do
  let exit := attempt world
  match exit.code with
  | some code =>
    emit exit.outputs
    return code.toUInt32
  | none => finish { world with fuel := 2 * world.fuel } attempt

def run (args : List Bytes) : IO UInt32 := do
  let start ← world nothing
  match CommandLine.request args with
  | .error exit => finish start fun _ => exit
  | .ok asked =>
    let loaded ← world (← readFile (CommandLine.configPath start.home asked.options).1)
    match CommandLine.setup loaded asked with
    | .error exit => finish start fun _ => exit
    | .ok s =>
      emit s.outputs
      match asked.source with
      | .code text => finish (← world nothing) fun now => CommandLine.runText now s text
      | .script path => finish (← world (← readScript path)) fun now => CommandLine.runScript now s path
      | .interactive =>
        let shell := CommandLine.openShell (← world (← readFile s.config.historyFile)) s
        emit [.out Shell.banner]
        let (exit, written) := CommandLine.leave s (← interact s shell 0)
        match written with
        | some (path, content) => writeFile path content
        | none => pure ()
        finish start fun _ => exit

end Lox.Process

def main (args : List String) : IO UInt32 := Lox.Process.run (args.map Lox.utf8)
