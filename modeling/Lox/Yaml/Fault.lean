/-
  Lox.Yaml.Fault — what can be wrong with a YAML text, and which line a message names.
  Faults lie on three levels: the bytes are no text, the text has no tokens, or the tokens
  form no document. A document can also ask for what there is not.
-/

import Lox.Text.Basic

namespace Lox.Yaml

inductive Fault where
  -- bytes
  | invalidLeadingByte
  | invalidTrailingByte
  | incompleteSequence
  | overlongSequence
  | invalidCodePoint
  | controlCharacter
  | incompleteUnit
  | unexpectedLowSurrogate
  | expectedLowSurrogate
  | incompletePair
  -- tokens
  | noToken
  | keyWithoutColon
  | valueNotAllowed
  | keyNotAllowed
  | entryNotAllowed
  | tooDeep
  | tabInIndentation
  | tabBeforeBlock
  | documentMarkInQuotes
  | endInQuotes
  | unknownEscape
  | expectedHexDigits
  | invalidEscapedCode
  | zeroIndentation
  | expectedLineEnd
  | expectedName
  | expectedDirectiveName
  | unexpectedInDirectiveName
  | unknownDirective
  | expectedVersion
  | longVersion
  | expectedDot
  | expectedExclamation
  | expectedBlank
  | expectedBlankOrLineEnd
  | expectedTagEnd
  | expectedTag
  | expectedTagOctet
  | invalidTagLeadingByte
  | invalidTagTrailingByte
  -- documents
  | expectedContent
  | expectedKey
  | expectedEntry
  | expectedSequenceEnd
  | expectedMappingEnd
  | expectedDocumentStart
  | repeatedVersion
  | incompatibleVersion
  | repeatedHandle
  | undefinedHandle
  -- values
  | unknownAnchor (name : Bytes)
  | endlessAnchor (name : Bytes)
  | cannotRead (found value tag : Bytes)
  | invalidBinary
  | invalidMerge
  deriving DecidableEq, Repr

def Fault.message : Fault → Bytes
  | .invalidLeadingByte => utf8 "invalid leading UTF-8 octet"
  | .invalidTrailingByte => utf8 "invalid trailing UTF-8 octet"
  | .incompleteSequence => utf8 "incomplete UTF-8 octet sequence"
  | .overlongSequence => utf8 "invalid length of a UTF-8 sequence"
  | .invalidCodePoint => utf8 "invalid Unicode character"
  | .controlCharacter => utf8 "control characters are not allowed"
  | .incompleteUnit => utf8 "incomplete UTF-16 character"
  | .unexpectedLowSurrogate => utf8 "unexpected low surrogate area"
  | .expectedLowSurrogate => utf8 "expected low surrogate area"
  | .incompletePair => utf8 "incomplete UTF-16 surrogate pair"
  | .noToken => utf8 "found character that cannot start any token"
  | .keyWithoutColon => utf8 "could not find expected ':'"
  | .valueNotAllowed => utf8 "mapping values are not allowed in this context"
  | .keyNotAllowed => utf8 "mapping keys are not allowed in this context"
  | .entryNotAllowed => utf8 "block sequence entries are not allowed in this context"
  | .tooDeep => utf8 "exceeded max depth of 10000"
  | .tabInIndentation => utf8 "found a tab character that violates indentation"
  | .tabBeforeBlock => utf8 "found a tab character where an indentation space is expected"
  | .documentMarkInQuotes => utf8 "found unexpected document indicator"
  | .endInQuotes => utf8 "found unexpected end of stream"
  | .unknownEscape => utf8 "found unknown escape character"
  | .expectedHexDigits => utf8 "did not find expected hexdecimal number"
  | .invalidEscapedCode => utf8 "found invalid Unicode character escape code"
  | .zeroIndentation => utf8 "found an indentation indicator equal to 0"
  | .expectedLineEnd => utf8 "did not find expected comment or line break"
  | .expectedName => utf8 "did not find expected alphabetic or numeric character"
  | .expectedDirectiveName => utf8 "could not find expected directive name"
  | .unexpectedInDirectiveName => utf8 "found unexpected non-alphabetical character"
  | .unknownDirective => utf8 "found unknown directive name"
  | .expectedVersion => utf8 "did not find expected version number"
  | .longVersion => utf8 "found extremely long version number"
  | .expectedDot => utf8 "did not find expected digit or '.' character"
  | .expectedExclamation => utf8 "did not find expected '!'"
  | .expectedBlank => utf8 "did not find expected whitespace"
  | .expectedBlankOrLineEnd => utf8 "did not find expected whitespace or line break"
  | .expectedTagEnd => utf8 "did not find the expected '>'"
  | .expectedTag => utf8 "did not find expected tag URI"
  | .expectedTagOctet => utf8 "did not find URI escaped octet"
  | .invalidTagLeadingByte => utf8 "found an incorrect leading UTF-8 octet"
  | .invalidTagTrailingByte => utf8 "found an incorrect trailing UTF-8 octet"
  | .expectedContent => utf8 "did not find expected node content"
  | .expectedKey => utf8 "did not find expected key"
  | .expectedEntry => utf8 "did not find expected '-' indicator"
  | .expectedSequenceEnd => utf8 "did not find expected ',' or ']'"
  | .expectedMappingEnd => utf8 "did not find expected ',' or '\x7d'"
  | .expectedDocumentStart => utf8 "did not find expected <document start>"
  | .repeatedVersion => utf8 "found duplicate %YAML directive"
  | .incompatibleVersion => utf8 "found incompatible YAML document"
  | .repeatedHandle => utf8 "found duplicate %TAG directive"
  | .undefinedHandle => utf8 "found undefined tag handle"
  | .unknownAnchor name => utf8 "unknown anchor '" ++ name ++ utf8 "' referenced"
  | .endlessAnchor name => utf8 "anchor '" ++ name ++ utf8 "' value contains itself"
  | .cannotRead found value tag =>
    utf8 "cannot decode " ++ found ++ utf8 " `" ++ value ++ utf8 "` as a " ++ tag
  | .invalidBinary => utf8 "!!binary value contains invalid base64 data"
  | .invalidMerge => utf8 "map merge requires map or sequence of maps as the value"

/-- A place in a text. All three are counted from zero; a line end of two characters counts
as two. -/
structure Mark where
  index : Nat := 0
  line : Nat := 0
  column : Nat := 0
  deriving DecidableEq, Repr

structure Malformed where
  line : Option Nat
  fault : Fault
  deriving DecidableEq, Repr

namespace Malformed

def text (m : Malformed) : Bytes :=
  match m.line with
  | none => m.fault.message
  | some line => utf8 "line " ++ Text.decimal line ++ utf8 ": " ++ m.fault.message

def unplaced (fault : Fault) : Malformed := ⟨none, fault⟩

/-- The line of what is being read, or else of where it went wrong. Neither is told if it is
the first one. -/
def lineOf? (start place : Mark) : Option Nat :=
  if start.line ≠ 0 then some start.line
  else if place.line ≠ 0 then some place.line
  else none

/-- A token that starts in one place goes wrong in another. Lines are counted from one. -/
def inToken (start place : Mark) (fault : Fault) : Malformed := ⟨(lineOf? start place).map (· + 1), fault⟩

/-- A part of the document that starts in one place goes wrong in another. Lines are counted
from zero. -/
def inDocument (start place : Mark) (fault : Fault) : Malformed := ⟨lineOf? start place, fault⟩

end Malformed

end Lox.Yaml
