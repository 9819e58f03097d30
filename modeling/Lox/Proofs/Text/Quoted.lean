/-
  Lox.Proofs.Text.Quoted — quoted texts can be told apart, and each ends where it ends. An
  escape is read back by its letter and everything else stands for itself, so the first
  character of what stands between the quotes is determined (`readChar_quoteChar`). Two
  quoted texts with something after them are then equal only if the texts are, and what
  follows (`quote_append_injective`). A quoted text has no line break of its own
  (`newline_not_mem_quote`), whatever the text holds.
-/

import Lox.Proofs.Lexical.Character
import Lox.Text.Quoted
import Mathlib.Tactic.IntervalCases
import Mathlib.Tactic.Ring

namespace Lox

open Lexical (Sequence isTail_iff isSecond_iff)

theorem Lexical.Sequence.ne_nil {bytes : Bytes} (h : Sequence bytes) : bytes ≠ [] := by
  cases h <;> exact List.cons_ne_nil _ _

namespace Utf8

/-! ## Characters -/

/-- The characters that a text can have. -/
inductive Char.Genuine : Char → Prop
  | point {code : Nat} : code < 0x110000 → Sequence (encode code) → Genuine (.point code (encode code))
  | stray {b : UInt8} : 128 ≤ b.toNat → Genuine (.stray b)

theorem Char.Genuine.of_bytes {code : Nat} {bytes : Bytes} (h : Sequence bytes) (hcode : code < 0x110000)
    (heq : encode code = bytes) : Genuine (.point code bytes) := by
  subst heq
  exact .point hcode h

theorem first_genuine (a : UInt8) (rest : Bytes) : (first a rest).Genuine := by
  by_cases ha : a.toNat < 128
  · have hfirst : first a rest = .point a.toNat [a] := by simp [first, UInt8.lt_iff_toNat_lt, ha]
    rw [hfirst]
    refine .of_bytes (.one ha) (by omega) ?_
    rw [encode, if_pos ha, UInt8.ofNat_toNat]
  · unfold first
    simp only [UInt8.lt_iff_toNat_lt, UInt8.le_iff_toNat_le, Bool.and_eq_true, decide_eq_true_eq, UInt8.reduceToNat, ha,
      if_false]
    have hstray : Char.Genuine (.stray a) := .stray (by omega)
    split
    · rename_i h2
      split
      · split
        · rename_i b _ hb
          have hseq := Sequence.two h2.1 h2.2 hb
          rw [isSecond_iff] at hb
          refine .of_bytes hseq (by unfold low; omega) ?_
          unfold encode low
          rw [if_neg (by omega), if_pos (by omega)]
          simp only [List.cons.injEq, ← UInt8.toNat_inj, UInt8.toNat_ofNat', and_true]
          omega
        · exact hstray
      · exact hstray
    · split
      · rename_i h3
        split
        · split
          · rename_i b c _ hb
            have hseq := Sequence.three h3.1 h3.2 hb.1 hb.2
            rw [isSecond_iff, isTail_iff] at hb
            refine .of_bytes hseq (by unfold low; omega) ?_
            unfold encode low
            rw [if_neg (by omega), if_neg (by omega), if_pos (by omega)]
            simp only [List.cons.injEq, ← UInt8.toNat_inj, UInt8.toNat_ofNat', and_true]
            omega
          · exact hstray
        · exact hstray
      · split
        · rename_i h4
          split
          · split
            · rename_i b c d _ hb
              have hseq := Sequence.four h4.1 h4.2 hb.1.1 hb.1.2 hb.2
              rw [isSecond_iff, isTail_iff, isTail_iff] at hb
              refine .of_bytes hseq (by unfold low; omega) ?_
              unfold encode low
              rw [if_neg (by omega), if_neg (by omega), if_neg (by omega)]
              simp only [List.cons.injEq, ← UInt8.toNat_inj, UInt8.toNat_ofNat', and_true]
              omega
            · exact hstray
          · exact hstray
        · exact hstray

theorem chars_genuine (s : Bytes) : ∀ c ∈ chars s, c.Genuine := by
  fun_induction chars s with
  | case1 => exact List.forall_mem_nil _
  | case2 a rest ih =>
    intro c hc
    rcases List.mem_cons.mp hc with rfl | hc
    · exact first_genuine a rest
    · exact ih c hc

theorem encode_ascii {code : Nat} (h : code < 128) : encode code = [UInt8.ofNat code] := if_pos h

theorem encode_not_ascii {code : Nat} (h : 128 ≤ code) (hseq : Sequence (encode code)) : ∀ b ∈ encode code, 128 ≤ b.toNat := by
  refine hseq.ascii_free.resolve_left fun hlength => ?_
  unfold encode at hlength
  rw [if_neg (by omega)] at hlength
  split at hlength
  · simp at hlength
  · split at hlength <;> simp at hlength

/-- An ASCII byte stands only in its own code point. -/
theorem not_mem_encode {code : Nat} {b : UInt8} (hseq : Sequence (encode code)) (hb : b.toNat < 128)
    (hne : code ≠ b.toNat) : b ∉ encode code := by
  intro hmem
  by_cases hascii : code < 128
  · rw [encode_ascii hascii, List.mem_singleton, ← UInt8.toNat_inj, UInt8.toNat_ofNat'] at hmem
    omega
  · exact absurd (encode_not_ascii (by omega) hseq b hmem) (by omega)

end Utf8

namespace Text

/-! ## Hexadecimal digits -/

def hexDigitValue (c : UInt8) : Nat := if c < 97 then c.toNat - 48 else c.toNat - 87

def hexValue (digits : Bytes) : Nat := digits.foldl (fun v d => 16 * v + hexDigitValue d) 0

theorem hexDigitValue_digit {d : Nat} (h : d < 16) :
    hexDigitValue (if d < 10 then UInt8.ofNat (48 + d) else UInt8.ofNat (87 + d)) = d := by
  revert d
  decide

/-- Digits are read back, up to what the width leaves out. -/
theorem hexValue_hex (width n : Nat) : hexValue (hex width n) = n % 16 ^ width := by
  have hstart : ∀ v, (hex width n).foldl (fun v d => 16 * v + hexDigitValue d) v = v * 16 ^ width + n % 16 ^ width := by
    induction width with
    | zero => intro v; simp [hex, Nat.mod_one]
    | succ w ih =>
      intro v
      have hdigit : n / Nat.pow 16 w % 16 < 16 := Nat.mod_lt _ (by decide)
      rw [hex, List.foldl_cons, hexDigitValue_digit hdigit, ih, Nat.mod_pow_succ]
      simp only [Nat.pow_eq, pow_succ]
      ring
  simpa [hexValue] using hstart 0

theorem hex_visible (width n : Nat) : ∀ c ∈ hex width n, 48 ≤ c.toNat := by
  have hdigit : ∀ d < 16, 48 ≤ (if d < 10 then UInt8.ofNat (48 + d) else UInt8.ofNat (87 + d)).toNat := by decide
  induction width with
  | zero => nofun
  | succ w ih =>
    intro c hc
    rw [hex] at hc
    rcases List.mem_cons.mp hc with rfl | hc
    · exact hdigit _ (Nat.mod_lt _ (by decide))
    · exact ih c hc

/-! ## Reading a quoted text -/

/-- What an escape stands for, by the letter after the backslash, and what follows it. -/
def readEscape (letter : UInt8) (rest : Bytes) : Bytes × Bytes :=
  if letter = 'x'.toUInt8 then ([UInt8.ofNat (hexValue (rest.take 2))], rest.drop 2)
  else if letter = 'u'.toUInt8 then (Utf8.encode (hexValue (rest.take 4)), rest.drop 4)
  else if letter = 'U'.toUInt8 then (Utf8.encode (hexValue (rest.take 8)), rest.drop 8)
  else match (List.range 14).find? fun code => escapeLetter? code = some letter with
    | some code => ([UInt8.ofNat code], rest)
    | none => ([letter], rest)

def readChar : Bytes → Bytes × Bytes
  | [] => ([], [])
  | a :: rest =>
    if a = backslash then readEscape (rest.headD 0) rest.tail
    else ((Utf8.first a rest).bytes, Utf8.afterFirst a rest)

theorem hexValue_take {width n : Nat} (h : n < 16 ^ width) (rest : Bytes) :
    hexValue ((hex width n ++ rest).take width) = n := by
  rw [List.take_left' (hex_length width n), hexValue_hex, Nat.mod_eq_of_lt h]

theorem drop_hex (width n : Nat) (rest : Bytes) : (hex width n ++ rest).drop width = rest :=
  List.drop_left' (hex_length width n)

theorem readChar_byte {n : Nat} (h : n < 16 ^ 2) (rest : Bytes) :
    readChar (utf8 "\\x" ++ hex 2 n ++ rest) = ([UInt8.ofNat n], rest) := by
  have hmark : utf8 "\\x" = [backslash, 'x'.toUInt8] := by decide
  rw [hmark, List.append_assoc]
  show readEscape 'x'.toUInt8 (hex 2 n ++ rest) = _
  rw [readEscape, if_pos rfl, hexValue_take h, drop_hex]

theorem readChar_letter {code : Nat} {letter : UInt8} (h : escapeLetter? code = some letter) (rest : Bytes) :
    readChar ([backslash, letter] ++ rest) = ([UInt8.ofNat code], rest) := by
  have hcode : 7 ≤ code ∧ code ≤ 13 := by
    unfold escapeLetter? at h
    split at h <;> first | omega | cases h
  show readEscape letter rest = _
  obtain ⟨hlow, hhigh⟩ := hcode
  interval_cases code <;> cases h <;> rfl

/-- Where no printable character stands. -/
theorem readChar_escapePoint {code : Nat} (h : code < 0x110000) (rest : Bytes) :
    readChar (escapePoint code ++ rest) = (Utf8.encode code, rest) := by
  unfold escapePoint
  split
  · rename_i letter hletter
    have hascii : code < 128 := by
      unfold escapeLetter? at hletter
      split at hletter <;> first | omega | cases hletter
    rw [readChar_letter hletter, Utf8.encode_ascii hascii]
  · split
    · rename_i hascii
      rw [readChar_byte (by omega), Utf8.encode_ascii hascii]
    · split
      · rename_i hsmall
        have hmark : utf8 "\\u" = [backslash, 'u'.toUInt8] := by decide
        rw [hmark, List.append_assoc]
        show readEscape 'u'.toUInt8 (hex 4 code ++ rest) = _
        rw [readEscape, if_neg (by decide), if_pos rfl, hexValue_take (by omega), drop_hex]
      · have hmark : utf8 "\\U" = [backslash, 'U'.toUInt8] := by decide
        rw [hmark, List.append_assoc]
        show readEscape 'U'.toUInt8 (hex 8 code ++ rest) = _
        rw [readEscape, if_neg (by decide), if_neg (by decide), if_pos rfl, hexValue_take (by omega), drop_hex]

/-- A character without an escape stands for itself. -/
theorem readChar_self {bytes : Bytes} (h : Sequence bytes) (hback : backslash ∉ bytes) (rest : Bytes) :
    readChar (bytes ++ rest) = (bytes, rest) := by
  obtain ⟨a, more, rfl⟩ := List.exists_cons_of_ne_nil h.ne_nil
  have hfirst := h.first_eq (show a :: more ++ rest = a :: (more ++ rest) from rfl)
  have hafter := Utf8.first_bytes_append a (more ++ rest)
  rw [hfirst, List.cons_append] at hafter
  have ha : a ≠ backslash := fun heq => hback (heq ▸ List.mem_cons_self)
  rw [List.cons_append, readChar, if_neg ha, hfirst, List.append_cancel_left (List.cons.inj hafter).2]

/-- The character at the front is read back. -/
theorem readChar_quoteChar {c : Utf8.Char} (h : c.Genuine) (rest : Bytes) :
    readChar (quoteChar c ++ rest) = (c.bytes, rest) := by
  cases h with
  | @stray b hb =>
    have hbyte : b.toNat < 16 ^ 2 := b.toNat_lt
    rw [quoteChar, readChar_byte hbyte, UInt8.ofNat_toNat]
    rfl
  | @point code hcode hseq =>
    rw [quoteChar]
    by_cases hmark : code = 0x22 ∨ code = 0x5C
    · rcases hmark with rfl | rfl <;> rfl
    · rw [if_neg (by simpa using hmark)]
      push Not at hmark
      split
      · exact readChar_self hseq (Utf8.not_mem_encode hseq (by decide) hmark.2) rest
      · exact readChar_escapePoint hcode rest

/-! ## Texts -/

theorem escapePoint_visible (code : Nat) :
    ∃ letter more, escapePoint code = backslash :: letter :: more ∧ ∀ b ∈ letter :: more, 34 ≤ b.toNat := by
  have hhex : ∀ {letter : UInt8} {width : Nat}, 34 ≤ letter.toNat → ∀ b ∈ letter :: hex width code, 34 ≤ b.toNat := by
    intro letter width hletter b hb
    rcases List.mem_cons.mp hb with rfl | hb
    · exact hletter
    · have := hex_visible width code b hb
      omega
  unfold escapePoint
  split
  · rename_i letter hletter
    refine ⟨letter, [], rfl, fun b hb => ?_⟩
    obtain rfl := List.mem_singleton.mp hb
    unfold escapeLetter? at hletter
    split at hletter <;> cases hletter <;> decide
  · split
    · exact ⟨'x'.toUInt8, _, rfl, hhex (by decide)⟩
    · split
      · exact ⟨'u'.toUInt8, _, rfl, hhex (by decide)⟩
      · exact ⟨'U'.toUInt8, _, rfl, hhex (by decide)⟩

/-- A character is escaped, or it is printable and no quote. -/
theorem quoteChar_escape_or_self {c : Utf8.Char} (h : c.Genuine) :
    (∃ letter more, quoteChar c = backslash :: letter :: more ∧ ∀ b ∈ letter :: more, 34 ≤ b.toNat) ∨
      ∃ code, quoteChar c = Utf8.encode code ∧ Sequence (Utf8.encode code) ∧ code ≠ 0x22 ∧ 0x20 ≤ code := by
  cases h with
  | @stray b hb =>
    refine .inl ⟨'x'.toUInt8, hex 2 b.toNat, rfl, fun d hd => ?_⟩
    rcases List.mem_cons.mp hd with rfl | hd
    · decide
    · have := hex_visible 2 b.toNat d hd
      omega
  | @point code hcode hseq =>
    rw [quoteChar]
    by_cases hmark : code = 0x22 ∨ code = 0x5C
    · rcases hmark with rfl | rfl
      · exact .inl ⟨0x22, [], rfl, List.forall_mem_singleton.mpr (by decide)⟩
      · exact .inl ⟨0x5C, [], rfl, List.forall_mem_singleton.mpr (by decide)⟩
    · rw [if_neg (by simpa using hmark)]
      push Not at hmark
      split
      · rename_i hprintable
        refine .inr ⟨code, rfl, hseq, hmark.1, ?_⟩
        simp only [isPrintable, Bool.or_eq_true, Bool.and_eq_true, decide_eq_true_eq] at hprintable
        omega
      · exact .inl (escapePoint_visible code)

theorem quoteChar_starts {c : Utf8.Char} (h : c.Genuine) : ∃ a more, quoteChar c = a :: more ∧ a ≠ quoteMark := by
  rcases quoteChar_escape_or_self h with ⟨letter, more, heq, -⟩ | ⟨code, heq, hseq, hquote, -⟩
  · exact ⟨backslash, letter :: more, heq, by decide⟩
  · obtain ⟨a, more, hbytes⟩ := List.exists_cons_of_ne_nil hseq.ne_nil
    have hfree := Utf8.not_mem_encode (b := quoteMark) hseq (by decide) hquote
    refine ⟨a, more, heq.trans hbytes, fun ha => hfree ?_⟩
    rw [hbytes, ha]
    exact List.mem_cons_self

theorem newline_not_mem_quoteChar {c : Utf8.Char} (h : c.Genuine) : newline ∉ quoteChar c := by
  rcases quoteChar_escape_or_self h with ⟨letter, more, heq, hvisible⟩ | ⟨code, heq, hseq, -, hcode⟩
  · rw [heq]
    intro hmem
    rcases List.mem_cons.mp hmem with hmem | hmem
    · exact absurd hmem (by decide)
    · exact absurd (hvisible _ hmem) (by decide)
  · rw [heq]
    refine Utf8.not_mem_encode hseq (by decide) fun hcode' => ?_
    simp only [newline, UInt8.reduceToNat] at hcode'
    omega

/-- A quoted text stays on one line. -/
theorem newline_not_mem_quote (s : Bytes) : newline ∉ quote s := by
  intro hmem
  rcases List.mem_append.mp hmem with hmem | hmem
  · rcases List.mem_cons.mp hmem with hmem | hmem
    · exact absurd hmem (by decide)
    · obtain ⟨c, hc, hmem⟩ := List.mem_flatMap.mp hmem
      exact newline_not_mem_quoteChar (Utf8.chars_genuine s c hc) hmem
  · exact absurd hmem (by decide)

/-- What stands between quotes is read character by character, up to the closing quote. -/
theorem flatMap_quoteChar_injective {cs cs' : List Utf8.Char} {rest rest' : Bytes} (hcs : ∀ c ∈ cs, c.Genuine)
    (hcs' : ∀ c ∈ cs', c.Genuine)
    (h : cs.flatMap quoteChar ++ quoteMark :: rest = cs'.flatMap quoteChar ++ quoteMark :: rest') :
    cs.flatMap Utf8.Char.bytes = cs'.flatMap Utf8.Char.bytes ∧ rest = rest' := by
  induction cs generalizing cs' with
  | nil =>
    cases cs' with
    | nil => exact ⟨rfl, (List.cons.inj h).2⟩
    | cons c' cs' =>
      obtain ⟨a, more, heq, ha⟩ := quoteChar_starts (hcs' c' List.mem_cons_self)
      rw [List.flatMap_cons, heq] at h
      exact absurd (List.cons.inj h).1.symm ha
  | cons c cs ih =>
    have hc := hcs c List.mem_cons_self
    cases cs' with
    | nil =>
      obtain ⟨a, more, heq, ha⟩ := quoteChar_starts hc
      rw [List.flatMap_cons, heq] at h
      exact absurd (List.cons.inj h).1 ha
    | cons c' cs' =>
      have hc' := hcs' c' List.mem_cons_self
      rw [List.flatMap_cons, List.flatMap_cons, List.append_assoc, List.append_assoc] at h
      have hread := congrArg readChar h
      rw [readChar_quoteChar hc, readChar_quoteChar hc', Prod.mk.injEq] at hread
      obtain ⟨hbytes, hrest⟩ := ih (fun d hd => hcs d (List.mem_cons_of_mem c hd))
        (fun d hd => hcs' d (List.mem_cons_of_mem c' hd)) hread.2
      refine ⟨?_, hrest⟩
      rw [List.flatMap_cons, List.flatMap_cons, hread.1, hbytes]

/-- Quoted texts can be told apart, and so can what follows them. -/
theorem quote_append_injective {s s' rest rest' : Bytes} (h : quote s ++ rest = quote s' ++ rest') :
    s = s' ∧ rest = rest' := by
  simp only [quote, List.cons_append, List.append_assoc] at h
  have hread := flatMap_quoteChar_injective (Utf8.chars_genuine s) (Utf8.chars_genuine s') (List.cons.inj h).2
  rwa [Utf8.chars_flatMap_bytes, Utf8.chars_flatMap_bytes] at hread

end Text

end Lox
