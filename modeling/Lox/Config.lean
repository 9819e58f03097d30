/-
  Lox.Config — the configuration file. What it sets replaces the defaults; what it leaves
  out, sets to null or to an empty text does not. Unknown and repeated keys and values of
  the wrong type are all reported together.
-/

import Lox.Files
import Lox.Text.Quoted
import Lox.Yaml.Document

namespace Lox

structure Config where
  logLevel : Bytes := utf8 "warn"
  color : Bool := true
  prompt : Bytes := utf8 "> "
  historyFile : Bytes := []
  deriving DecidableEq, Repr

inductive ConfigProblem where
  | unknownField (line : Nat) (name : Bytes)
  | repeatedField (line : Nat) (name : Bytes)
  | wrongType (line : Nat) (tag value target : Bytes)
  | repeatedKey (line : Nat) (name : Bytes) (first : Nat)
  deriving DecidableEq, Repr

namespace ConfigProblem

/-- A value as messages show it behind a tag: quoted, and in full if it is short. Under the tag of
a collection it stands as it is, and a collection has none. -/
def shown (tag value : Bytes) : Bytes :=
  if tag = Yaml.Tag.seq || tag = Yaml.Tag.map then value
  else if 10 < value.length then utf8 " `" ++ value.take 7 ++ utf8 "...`"
  else utf8 " `" ++ value ++ utf8 "`"

def text : ConfigProblem → Bytes
  | .unknownField line name =>
    utf8 "line " ++ Text.decimal line ++ utf8 ": field " ++ name ++ utf8 " not found in type main.config"
  | .repeatedField line name =>
    utf8 "line " ++ Text.decimal line ++ utf8 ": field " ++ name ++ utf8 " already set in type main.config"
  | .wrongType line tag value target =>
    utf8 "line " ++ Text.decimal line ++ utf8 ": cannot unmarshal " ++ tag ++ shown tag value ++ utf8 " into "
      ++ target
  | .repeatedKey line name first =>
    utf8 "line " ++ Text.decimal line ++ utf8 ": mapping key " ++ Text.quote name
      ++ utf8 " already defined at line " ++ Text.decimal first

end ConfigProblem

inductive ConfigError where
  | unopened (path : Bytes) (error : ReadError)
  | unreadable (path : Bytes) (error : ReadError)
  | malformed (path : Bytes) (error : Yaml.Malformed)
  | problems (path : Bytes) (problems : List ConfigProblem)
  deriving DecidableEq, Repr

def ConfigError.text : ConfigError → Bytes
  | .unopened path error => utf8 "config: open " ++ path ++ utf8 ": " ++ error.text
  | .unreadable path error => utf8 "config: parse " ++ path ++ utf8 ": yaml: input error: " ++ error.text
  | .malformed path error => utf8 "config: parse " ++ path ++ utf8 ": yaml: " ++ error.text
  | .problems path found =>
    utf8 "config: parse " ++ path ++ utf8 ": yaml: unmarshal errors:"
      ++ found.flatMap fun p => utf8 "\n  " ++ p.text

namespace Config

open Yaml

structure Settings where
  logLevel : Option Bytes := none
  color : Option Bool := none
  prompt : Option Bytes := none
  historyFile : Option Bytes := none

structure Findings where
  settings : Settings := {}
  problems : List ConfigProblem := []

abbrev Decoding := StateT Findings (Except Yaml.Fault)

def report (problems : List ConfigProblem) : Decoding Unit :=
  modify fun f => { f with problems := f.problems ++ problems }

/-- Every later key that repeats an earlier one, by the earlier one first. -/
def repeated : List (Node × Node) → List ConfigProblem
  | [] => []
  | (key, _) :: rest =>
    (rest.filter fun e => key.sameKey e.1).map (fun e => .repeatedKey e.1.line e.1.text key.line) ++ repeated rest

def mismatch (node : Node) (target : String) : List ConfigProblem :=
  let wrong := [.wrongType node.line node.tag node.text (utf8 target)]
  match node with
  | .mapping _ _ entries =>
    let again := repeated entries
    if again.isEmpty then wrong else again
  | _ => wrong

structure Reached where
  node : Node
  through : List Nat := []

/-- The node that another stands for. No alias can be on the way to itself. -/
def follow (doc : Document) (here : Reached) : Except Yaml.Fault Reached :=
  match here.node with
  | .reference _ name number target =>
    if here.through.contains number then .error (.endlessAnchor name)
    else match doc.find? target with
      | some node => .ok ⟨node, number :: here.through⟩
      | none => .error (.unknownAnchor name)
  | _ => .ok here

def decodeText (doc : Document) (here : Reached) : Decoding (Option Bytes) := do
  let there ← liftM (follow doc here)
  match there.node with
  | .scalar _ tag value =>
    match ← liftM (meaningOf tag value) with
    | .null => return none
    | .text value => return some value
    | _ => return some value
  | node =>
    report (mismatch node "string")
    return none

def yesWords : List Bytes :=
  [utf8 "y", utf8 "Y", utf8 "yes", utf8 "Yes", utf8 "YES", utf8 "on", utf8 "On", utf8 "ON"]

def noWords : List Bytes :=
  [utf8 "n", utf8 "N", utf8 "no", utf8 "No", utf8 "NO", utf8 "off", utf8 "Off", utf8 "OFF"]

def switch? : Meaning → Option Bool
  | .bool b => some b
  | .text value => if yesWords.contains value then some true else if noWords.contains value then some false else none
  | _ => none

def decodeBool (doc : Document) (here : Reached) : Decoding (Option Bool) := do
  let there ← liftM (follow doc here)
  match there.node with
  | .scalar _ tag value =>
    let meaning ← liftM (meaningOf tag value)
    if meaning = .null then return none
    match switch? meaning with
    | some b => return some b
    | none =>
      report (mismatch there.node "bool")
      return none
  | node =>
    report (mismatch node (if node.tag = Tag.null then "*bool" else "bool"))
    return none

inductive Field where
  | logLevel
  | color
  | prompt
  | historyFile
  deriving DecidableEq, Repr

def Field.ofName? (name : Bytes) : Option Field :=
  if name = utf8 "log_level" then some .logLevel
  else if name = utf8 "color" then some .color
  else if name = utf8 "prompt" then some .prompt
  else if name = utf8 "history_file" then some .historyFile
  else none

/-- Takes in the value of a field. Null leaves a text as it is. -/
def decodeField (doc : Document) (field : Field) (here : Reached) : Decoding Unit := do
  let update := fun (f : Settings → Settings) => modify fun s => { s with settings := f s.settings }
  match field with
  | .color =>
    let value ← decodeBool doc here
    update ({ · with color := value })
  | .logLevel =>
    if let some value ← decodeText doc here then update ({ · with logLevel := some value })
  | .prompt =>
    if let some value ← decodeText doc here then update ({ · with prompt := some value })
  | .historyFile =>
    if let some value ← decodeText doc here then update ({ · with historyFile := some value })

/-- The names that merged entries cannot set any more; none outside of a merge. -/
abbrev Settled := Option (List Bytes)

/-- Takes in entries, those that merge apart. -/
def decodeEntries (doc : Document) (through : List Nat) :
    List (Node × Node) → List Field → Settled → Decoding Settled
  | [], _, settled => return settled
  | (key, value) :: rest, done, settled => do
    if key.isMerge then return ← decodeEntries doc through rest done settled
    let some name ← decodeText doc ⟨key, through⟩ | return ← decodeEntries doc through rest done settled
    if settled.any (·.contains name) then return ← decodeEntries doc through rest done settled
    let settled := settled.map (name :: ·)
    match Field.ofName? name with
    | none =>
      report [.unknownField key.line name]
      decodeEntries doc through rest done settled
    | some field =>
      if done.contains field then
        report [.repeatedField key.line name]
        decodeEntries doc through rest done settled
      else
        decodeField doc field ⟨value, through⟩
        decodeEntries doc through rest (field :: done) settled

def textKeys (doc : Document) (through : List Nat) (entries : List (Node × Node)) : List Bytes :=
  entries.filterMap fun (key, _) =>
    match follow doc ⟨key, through⟩ with
    | .ok ⟨.scalar _ tag value, _⟩ =>
      match meaningOf tag value with
      | .ok (.text text) => some text
      | _ => none
    | _ => none

/-- The mappings that a merge names, each as far as it is asked for. -/
def mergeParts (node : Node) : List Node :=
  match node with
  | .sequence _ _ items => items
  | _ => [node]

def isMapping (doc : Document) : Node → Bool
  | .mapping _ _ _ => true
  | .reference _ _ _ target => match doc.find? target with
    | some (.mapping _ _ _) => true
    | _ => false
  | _ => false

/-- Takes in a mapping, and then those that it merges. The number bounds how deep merges go. -/
def decodeRecord (doc : Document) : Nat → Reached → Settled → Decoding Settled
  | 0, _, settled => return settled
  | n + 1, here, settled => do
    let there ← liftM (follow doc here)
    match there.node with
    | .scalar _ tag value =>
      if (← liftM (meaningOf tag value)) ≠ .null then report (mismatch there.node "main.config")
      return settled
    | .mapping _ _ entries =>
      let again := repeated entries
      if !again.isEmpty then
        report again
        return settled
      let settled ← decodeEntries doc there.through entries [] settled
      match entries.find? (·.1.isMerge) with
      | none => return settled
      | some (_, merged) =>
        let inner := settled.getD (textKeys doc there.through entries)
        let inner ← (mergeParts merged).foldlM (fun inner part => do
          if !isMapping doc part then throw .invalidMerge
          decodeRecord doc n ⟨part, there.through⟩ inner) (some inner)
        return if settled.isSome then inner else none
    | node =>
      report (mismatch node "main.config")
      return settled

def decode (doc : Document) (steps : Nat) : Except Yaml.Fault Findings := do
  let (_, findings) ← (decodeRecord doc steps ⟨doc.root, []⟩ none).run {}
  return findings

def defaultName : Bytes := utf8 ".rpdc.yaml"

def historyName : Bytes := utf8 ".rpdc_history"

def default (home : Option Bytes) : Config :=
  { historyFile := (home.map fun h => Path.join h historyName).getD [] }

def defaultPath (home : Option Bytes) : Bytes := (home.map fun h => Path.join h defaultName).getD []

/-- A tilde in front stands for the home directory. -/
def expandHome (home : Option Bytes) (path : Bytes) : Bytes :=
  match home with
  | some h => if (utf8 "~/").isPrefixOf path then Path.join h (path.drop 2) else path
  | none => path

def nonempty (value : Option Bytes) (otherwise : Bytes) : Bytes :=
  match value with
  | some v => if v.isEmpty then otherwise else v
  | none => otherwise

def merge (config : Config) (home : Option Bytes) (settings : Settings) : Config :=
  { logLevel := nonempty settings.logLevel config.logLevel
    color := settings.color.getD config.color
    prompt := nonempty settings.prompt config.prompt
    historyFile := nonempty (settings.historyFile.map (expandHome home)) config.historyFile }

/-- Loads the file at a path. It may be missing unless it was asked for by name. -/
def load (home : Option Bytes) (read : Bytes → Except ReadError Bytes) (path : Bytes) (explicit : Bool) :
    Except ConfigError Config :=
  if path.isEmpty then .ok (default home)
  else match read path with
    | .error e =>
      match e.fault with
      | .missing => if explicit then .error (.unopened path e) else .ok (default home)
      | .isDirectory => .error (.unreadable path e)
      | _ => .error (.unopened path e)
    | .ok text =>
      match Yaml.parse text with
      | .error e => .error (.malformed path e)
      | .ok none => .ok (default home)
      | .ok (some doc) =>
        match decode doc (Nat.pow (text.length + 2) 2) with
        | .error fault => .error (.malformed path (.unplaced fault))
        | .ok found =>
          if found.problems.isEmpty then .ok ((default home).merge home found.settings)
          else .error (.problems path found.problems)

end Config

end Lox
