/-
  Lox.Files — paths and a tree of files. A path is resolved component by component, so it
  can fail on the way: at a name that is missing or too long, or at a file that is no
  directory. A path as a whole may not hold a zero byte, nor be too long.
-/

import Lox.Text.Basic

namespace Lox

namespace Path

def slash : UInt8 := '/'.toUInt8

def dot : Bytes := utf8 "."

def dotDot : Bytes := utf8 ".."

def isAbsolute (path : Bytes) : Bool := path.head? == some slash

/-- Leaves out empty components and dots, and lets each double dot cancel the name before it.
Where there is none, it is dropped at the root and kept in a relative path. The names kept so
far come in reverse. -/
def reduce (absolute : Bool) (kept : List Bytes) : List Bytes → List Bytes
  | [] => kept.reverse
  | c :: rest =>
    if c = [] || c = dot then reduce absolute kept rest
    else if c = dotDot then
      match kept with
      | [] => reduce absolute (if absolute then [] else [dotDot]) rest
      | k :: more =>
        if k = dotDot then reduce absolute (dotDot :: kept) rest else reduce absolute more rest
    else reduce absolute (c :: kept) rest

/-- The shortest path that names the same place in a tree without links. -/
def clean (path : Bytes) : Bytes :=
  let absolute := isAbsolute path
  let names := Text.join [slash] (reduce absolute [] (Text.splitOn slash path))
  if absolute then slash :: names else if names.isEmpty then dot else names

def join (directory name : Bytes) : Bytes :=
  if directory.isEmpty then (if name.isEmpty then [] else clean name) else clean (directory ++ slash :: name)

def absolute (workingDirectory path : Bytes) : Bytes :=
  if isAbsolute path then clean path else join workingDirectory path

end Path

inductive FileFault where
  | missing
  | notDirectory
  | isDirectory
  | invalidPath
  | nameTooLong
  deriving DecidableEq, Repr

def FileFault.message : FileFault → String
  | .missing => "no such file or directory"
  | .notDirectory => "not a directory"
  | .isDirectory => "is a directory"
  | .invalidPath => "invalid argument"
  | .nameTooLong => "file name too long"

structure ReadError where
  path : Bytes
  fault : FileFault
  deriving DecidableEq, Repr

/-- A directory can be opened but not read. -/
def ReadError.text (e : ReadError) : Bytes :=
  let attempt := match e.fault with
    | .isDirectory => "read "
    | _ => "open "
  utf8 attempt ++ e.path ++ utf8 ": " ++ utf8 e.fault.message

inductive FileEntry where
  | file (content : Bytes)
  | directory
  deriving DecidableEq, Repr

/-- Files and directories, each by the names on the way from the root. A directory is also
known by what lies in it. -/
structure FileTree where
  entries : List (List Bytes × FileEntry) := []

namespace FileTree

def entry? (t : FileTree) (names : List Bytes) : Option FileEntry :=
  match t.entries.lookup names with
  | some e => some e
  | none =>
    if names.isEmpty || t.entries.any fun e => names.isPrefixOf e.1 then some .directory else none

def nameLimit : Nat := 255

def pathLimit : Nat := 4096

def pathFault? (path : Bytes) : Option FileFault :=
  if path.contains 0 then some .invalidPath
  else if pathLimit ≤ path.length then some .nameTooLong
  else none

def walk (t : FileTree) (place : List Bytes) : List Bytes → Except FileFault (List Bytes)
  | [] => .ok place
  | c :: rest =>
    match t.entry? place with
    | none => .error .missing
    | some (.file _) => .error .notDirectory
    | some .directory =>
      if c = [] || c = Path.dot then walk t place rest
      else if c = Path.dotDot then walk t place.dropLast rest
      else if nameLimit < c.length then .error .nameTooLong
      else if (t.entry? (place ++ [c])).isSome then walk t (place ++ [c]) rest
      else .error .missing

def names (path : Bytes) : List Bytes := (Text.splitOn Path.slash path).filter (!·.isEmpty)

def resolve (t : FileTree) (workingDirectory path : Bytes) : Except FileFault (List Bytes) :=
  match pathFault? path with
  | some fault => .error fault
  | none => walk t (if Path.isAbsolute path then [] else names workingDirectory) (Text.splitOn Path.slash path)

def read (t : FileTree) (workingDirectory path : Bytes) : Except ReadError Bytes :=
  match t.resolve workingDirectory path with
  | .error fault => .error ⟨path, fault⟩
  | .ok place =>
    match t.entry? place with
    | some (.file content) => .ok content
    | some .directory => .error ⟨path, .isDirectory⟩
    | none => .error ⟨path, .missing⟩

/-- Makes or replaces a file; the tree stays as it is if that cannot be done. -/
def write (t : FileTree) (workingDirectory path content : Bytes) : FileTree :=
  let components := Text.splitOn Path.slash path
  let name := components.getLast?.getD []
  let start := if Path.isAbsolute path then [] else names workingDirectory
  if (pathFault? path).isSome || name = [] || name = Path.dot || name = Path.dotDot || nameLimit < name.length then t
  else match walk t start components.dropLast with
    | .error _ => t
    | .ok parent =>
      let place := parent ++ [name]
      match t.entry? parent, t.entry? place with
      | some .directory, some .directory => t
      | some .directory, _ => ⟨t.entries.filter (·.1 != place) ++ [(place, .file content)]⟩
      | _, _ => t

/-- The files that are new or different in the second tree, and their contents. -/
def changes (before after : FileTree) : List (List Bytes × Bytes) :=
  after.entries.filterMap fun (place, e) =>
    match e with
    | .file content => if before.entries.lookup place == some e then none else some (place, content)
    | .directory => none

end FileTree

end Lox
