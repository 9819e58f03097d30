/-
  Lox.Flags — the flags of the command line. A flag has one or two dashes; its value follows
  an equals sign or, unless the flag is a switch, is the next argument. Flags end at the
  first argument that is none, or after two dashes.
-/

import Lox.Text.Quoted

namespace Lox

structure Options where
  code : Bytes := []
  configPath : Bytes := []
  noColor : Bool := false
  logLevel : Bytes := []
  tokens : Bool := false
  tree : Bool := false
  deriving DecidableEq, Repr

inductive FlagFault where
  | badFlag (argument : Bytes)
  | unknown (name : Bytes)
  | missingValue (name : Bytes)
  | badSwitch (name value : Bytes)
  | help
  deriving DecidableEq, Repr

/-- A request for help needs no explanation. -/
def FlagFault.message? : FlagFault → Option Bytes
  | .badFlag argument => some (utf8 "bad flag syntax: " ++ argument)
  | .unknown name => some (utf8 "flag provided but not defined: -" ++ name)
  | .missingValue name => some (utf8 "flag needs an argument: -" ++ name)
  | .badSwitch name value =>
    some (utf8 "invalid boolean value " ++ Text.quote value ++ utf8 " for -" ++ name ++ utf8 ": parse error")
  | .help => none

namespace Flags

inductive Flag where
  | switch (set : Bool → Options → Options)
  | text (set : Bytes → Options → Options)

def known : List (Bytes × Flag) := [
  (utf8 "e", .text fun v o => { o with code := v }),
  (utf8 "config", .text fun v o => { o with configPath := v }),
  (utf8 "no-color", .switch fun v o => { o with noColor := v }),
  (utf8 "log-level", .text fun v o => { o with logLevel := v }),
  (utf8 "tokens", .switch fun v o => { o with tokens := v }),
  (utf8 "ast", .switch fun v o => { o with tree := v })]

def usage : Bytes := utf8 (
  "Usage: rpdc [flags] [script]\n" ++
  "  -ast\n    \tprint the syntax tree instead of running\n" ++
  "  -config file\n    \tread configuration from file (default $HOME/.rpdc.yaml)\n" ++
  "  -e code\n    \tevaluate code and exit\n" ++
  "  -log-level level\n    \tlog level (debug, info, warn, error)\n" ++
  "  -no-color\n    \tdisable colored diagnostics\n" ++
  "  -tokens\n    \tprint the token stream instead of running\n")

def switchValues : List (Bytes × Bool) := [
  (utf8 "1", true), (utf8 "t", true), (utf8 "T", true), (utf8 "TRUE", true), (utf8 "true", true),
  (utf8 "True", true), (utf8 "0", false), (utf8 "f", false), (utf8 "F", false), (utf8 "FALSE", false),
  (utf8 "false", false), (utf8 "False", false)]

def dash : UInt8 := '-'.toUInt8

def equals : UInt8 := '='.toUInt8

/-- A flag's name and the value after an equals sign, which is not the first character. -/
def splitValue : Bytes → Bytes × Option Bytes
  | [] => ([], none)
  | c :: rest =>
    let value := rest.dropWhile (· != equals)
    (c :: rest.takeWhile (· != equals), if value.isEmpty then none else some value.tail)

/-- The text of a flag without its dashes, or the two dashes that end the flags, or neither. -/
inductive Argument where
  | flag (body : Bytes)
  | endOfFlags
  | plain

def classify (argument : Bytes) : Argument :=
  match argument with
  | a :: b :: rest =>
    if a != dash then .plain
    else if b != dash then .flag (b :: rest)
    else if rest.isEmpty then .endOfFlags
    else .flag rest
  | _ => .plain

def isBadName (body : Bytes) : Bool :=
  match body with
  | [] => true
  | c :: _ => c = dash || c = equals

/-- Reads flags until they end; what is left are the other arguments. -/
def parse (options : Options) : List Bytes → Except FlagFault (Options × List Bytes)
  | [] => .ok (options, [])
  | argument :: rest =>
    match classify argument with
    | .plain => .ok (options, argument :: rest)
    | .endOfFlags => .ok (options, rest)
    | .flag body =>
      if isBadName body then .error (.badFlag argument)
      else
        let (name, value) := splitValue body
        match known.lookup name, value with
        | none, _ => .error (if name = utf8 "help" || name = utf8 "h" then .help else .unknown name)
        | some (.switch set), none => parse (set true options) rest
        | some (.switch set), some v =>
          match switchValues.lookup v with
          | some b => parse (set b options) rest
          | none => .error (.badSwitch name v)
        | some (.text set), some v => parse (set v options) rest
        | some (.text set), none =>
          match rest with
          | [] => .error (.missingValue name)
          | v :: more => parse (set v options) more

end Flags

end Lox
