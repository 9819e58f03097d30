/-
  Lox.Brackets — how many parentheses and braces a text leaves open. Brackets in strings
  and comments do not count; a string that does not end counts as open.
-/

import Lox.Text.Basic

namespace Lox.Brackets

def afterString? (rest : Bytes) : Option Bytes :=
  match rest.dropWhile (· != Text.quoteMark) with
  | [] => none
  | _ :: more => some more

/-- What follows a comment, from its newline on. -/
def afterComment (rest : Bytes) : Bytes := rest.dropWhile (· != Text.newline)

theorem afterString?_length_le {rest more : Bytes} (h : afterString? rest = some more) :
    more.length ≤ rest.length := by
  unfold afterString? at h
  have hle := (List.dropWhile_sublist (l := rest) (fun c => c != Text.quoteMark)).length_le
  split at h
  · cases h
  · next heq =>
    cases h
    rw [heq] at hle
    simp only [List.length_cons] at hle
    omega

def countFrom (depth : Int) : Bytes → Int
  | [] => depth
  | c :: rest =>
    if c = '('.toUInt8 || c = Text.openBrace then countFrom (depth + 1) rest
    else if c = ')'.toUInt8 || c = Text.closeBrace then countFrom (depth - 1) rest
    else if c = Text.quoteMark then
      match h : afterString? rest with
      | none => depth + 1
      | some more => countFrom depth more
    else if c = '/'.toUInt8 && rest.head? == some '/'.toUInt8 then countFrom depth (afterComment rest)
    else countFrom depth rest
termination_by s => s.length
decreasing_by
  · simp
  · simp
  · have := afterString?_length_le h
    simp only [List.length_cons]
    omega
  · have := (List.dropWhile_sublist (l := rest) (fun c => c != Text.newline)).length_le
    simp only [List.length_cons, afterComment]
    omega
  · simp

/-- The brackets left open by a text; negative when it closes more than it opens. -/
def count (source : Bytes) : Int := countFrom 0 source

end Lox.Brackets
