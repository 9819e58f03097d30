/-
  Lox.Yaml.Token — the tokens of a YAML text. Indentation becomes tokens too: a block
  collection has a start and an end.
-/

import Lox.Yaml.Property

namespace Lox.Yaml

inductive TokenKind where
  | streamStart
  | streamEnd
  | directive (d : Directive)
  | documentStart
  | documentEnd
  | blockSequenceStart
  | blockMappingStart
  | blockEnd
  | flowSequenceStart
  | flowSequenceEnd
  | flowMappingStart
  | flowMappingEnd
  | blockEntry
  | flowEntry
  | key
  | value
  | reference (name : Bytes)
  | anchor (name : Bytes)
  | tag (tag : TagText)
  | scalar (plain : Bool) (text : Bytes)
  deriving DecidableEq, Repr

structure Token where
  kind : TokenKind
  start : Mark
  stop : Mark
  deriving DecidableEq, Repr

end Lox.Yaml
