/-
  Lox.Proofs.Lexical.Character — characters as the core library encodes them. The byte
  sequences that `Utf8.first` accepts (`Sequence`) are exactly the encodings of code points,
  so `Utf8.first` finds the character at the front of every text (`character_iff`).
-/

import Lox.Proofs.Lexical

namespace Lox.Lexical

open Utf8 (isTail isSecond first)

/-! ## Bytes as numbers -/

theorem isTail_iff (b : UInt8) : isTail b = true ↔ 128 ≤ b.toNat ∧ b.toNat ≤ 191 := by
  simp [isTail, UInt8.le_iff_toNat_le]

theorem isSecond_iff (a b : UInt8) :
    isSecond a b = true ↔ (128 ≤ b.toNat ∧ b.toNat ≤ 191) ∧ (a.toNat = 224 → 160 ≤ b.toNat) ∧
      (a.toNat = 237 → b.toNat ≤ 159) ∧ (a.toNat = 240 → 144 ≤ b.toNat) ∧ (a.toNat = 244 → b.toNat ≤ 143) := by
  unfold isSecond
  repeat' split
  all_goals
    simp only [← UInt8.toNat_inj] at *
    simp [isTail, UInt8.le_iff_toNat_le] at *
    omega

/-! ## Sequences -/

/-- The byte sequences that stand for one code point. -/
inductive Sequence : Bytes → Prop
  | one {a : UInt8} : a.toNat < 128 → Sequence [a]
  | two {a b : UInt8} : 194 ≤ a.toNat → a.toNat ≤ 223 → isSecond a b = true → Sequence [a, b]
  | three {a b c : UInt8} :
      224 ≤ a.toNat → a.toNat ≤ 239 → isSecond a b = true → isTail c = true → Sequence [a, b, c]
  | four {a b c d : UInt8} :
      240 ≤ a.toNat → a.toNat ≤ 244 → isSecond a b = true → isTail c = true → isTail d = true → Sequence [a, b, c, d]

/-- A sequence of more than one byte has no ASCII byte. -/
theorem Sequence.ascii_free {bytes : Bytes} (h : Sequence bytes) : bytes.length = 1 ∨ ∀ b ∈ bytes, 128 ≤ b.toNat := by
  cases h with
  | one => exact .inl rfl
  | two ha _ hb =>
    rw [isSecond_iff] at hb
    refine .inr fun x hx => ?_
    simp only [List.mem_cons, List.not_mem_nil, or_false] at hx
    rcases hx with rfl | rfl <;> omega
  | three ha _ hb hc =>
    rw [isSecond_iff] at hb
    rw [isTail_iff] at hc
    refine .inr fun x hx => ?_
    simp only [List.mem_cons, List.not_mem_nil, or_false] at hx
    rcases hx with rfl | rfl | rfl <;> omega
  | four ha _ hb hc hd =>
    rw [isSecond_iff] at hb
    rw [isTail_iff] at hc hd
    refine .inr fun x hx => ?_
    simp only [List.mem_cons, List.not_mem_nil, or_false] at hx
    rcases hx with rfl | rfl | rfl | rfl <;> omega

/-- What is read first is a sequence, or a byte that is no sequence. -/
theorem sequence_or_stray (a : UInt8) (rest : Bytes) :
    Sequence (first a rest).bytes ∨ (first a rest).bytes = [a] ∧ 128 ≤ a.toNat := by
  by_cases ha : a.toNat < 128
  · refine .inl ?_
    have hfirst : first a rest = .point a.toNat [a] := by simp [first, UInt8.lt_iff_toNat_lt, ha]
    rw [hfirst]
    exact .one ha
  · unfold first
    simp only [UInt8.lt_iff_toNat_lt, UInt8.le_iff_toNat_le, Bool.and_eq_true, decide_eq_true_eq, UInt8.reduceToNat, ha,
      if_false]
    have hstray : (Utf8.Char.stray a).bytes = [a] ∧ 128 ≤ a.toNat := ⟨rfl, by omega⟩
    split
    · rename_i h2
      split
      · split
        · rename_i hb
          exact .inl (.two h2.1 h2.2 hb)
        · exact .inr hstray
      · exact .inr hstray
    · split
      · rename_i h3
        split
        · split
          · rename_i hb
            exact .inl (.three h3.1 h3.2 hb.1 hb.2)
          · exact .inr hstray
        · exact .inr hstray
      · split
        · rename_i h4
          split
          · split
            · rename_i hb
              exact .inl (.four h4.1 h4.2 hb.1.1 hb.1.2 hb.2)
            · exact .inr hstray
          · exact .inr hstray
        · exact .inr hstray

/-- A sequence at the front is read, whatever follows. -/
theorem Sequence.first_eq {bytes more rest : Bytes} {a : UInt8} (h : Sequence bytes) (heq : bytes ++ more = a :: rest) :
    (first a rest).bytes = bytes := by
  cases h with
  | one ha =>
    cases heq
    simp [first, UInt8.lt_iff_toNat_lt, Utf8.Char.bytes, ha]
  | two ha ha' hb =>
    cases heq
    have h1 : ¬ a.toNat < 128 := by omega
    simp [first, UInt8.lt_iff_toNat_lt, UInt8.le_iff_toNat_le, Utf8.Char.bytes, h1, ha, ha', hb]
  | three ha ha' hb hc =>
    cases heq
    have h1 : ¬ a.toNat < 128 := by omega
    have h2 : ¬ a.toNat ≤ 223 := by omega
    simp [first, UInt8.lt_iff_toNat_lt, UInt8.le_iff_toNat_le, Utf8.Char.bytes, h1, h2, ha, ha', hb, hc]
  | four ha ha' hb hc hd =>
    cases heq
    have h1 : ¬ a.toNat < 128 := by omega
    have h2 : ¬ a.toNat ≤ 223 := by omega
    have h3 : ¬ a.toNat ≤ 239 := by omega
    simp [first, UInt8.lt_iff_toNat_lt, UInt8.le_iff_toNat_le, Utf8.Char.bytes, h1, h2, h3, ha, ha', hb, hc, hd]

/-! ## Code points -/

/-- The encoding of a code point is a sequence. -/
theorem sequence_encode (c : Char) : Sequence (String.utf8EncodeChar c) := by
  have hvalid : c.val.toNat < 55296 ∨ (57343 < c.val.toNat ∧ c.val.toNat < 1114112) := c.valid
  unfold String.utf8EncodeChar
  generalize c.val.toNat = v at hvalid
  dsimp only
  split
  · refine .one ?_
    rw [UInt8.toNat_ofNat']
    omega
  split
  · refine .two ?_ ?_ ?_ <;> simp only [isSecond_iff, UInt8.toNat_ofNat'] <;> omega
  split
  · refine .three ?_ ?_ ?_ ?_ <;> simp only [isSecond_iff, isTail_iff, UInt8.toNat_ofNat'] <;> omega
  · refine .four ?_ ?_ ?_ ?_ ?_ <;> simp only [isSecond_iff, isTail_iff, UInt8.toNat_ofNat'] <;> omega

theorem exists_char {v : Nat} (h : v.isValidChar) : ∃ c : Char, c.val.toNat = v := ⟨Char.ofNatAux v h, rfl⟩

/-- And there are no other sequences. -/
theorem Sequence.exists_encode {bytes : Bytes} (h : Sequence bytes) : ∃ c : Char, bytes = String.utf8EncodeChar c := by
  cases h with
  | @one a ha =>
    obtain ⟨c, hc⟩ := exists_char (v := a.toNat) (.inl (by omega))
    refine ⟨c, ?_⟩
    simp only [String.utf8EncodeChar, hc]
    rw [if_pos (by omega), UInt8.ofNat_toNat]
  | @two a b ha ha' hb =>
    rw [isSecond_iff] at hb
    obtain ⟨c, hc⟩ := exists_char (v := (a.toNat - 192) * 64 + (b.toNat - 128)) (.inl (by omega))
    refine ⟨c, ?_⟩
    simp only [String.utf8EncodeChar, hc]
    rw [if_neg (by omega), if_pos (by omega)]
    simp only [List.cons.injEq, ← UInt8.toNat_inj, UInt8.toNat_ofNat', and_true]
    omega
  | @three a b d ha ha' hb hd =>
    rw [isSecond_iff] at hb
    rw [isTail_iff] at hd
    have hvalid : ((a.toNat - 224) * 4096 + (b.toNat - 128) * 64 + (d.toNat - 128)).isValidChar := by
      by_cases hlow : a.toNat ≤ 237
      · exact .inl (by omega)
      · exact .inr ⟨by omega, by omega⟩
    obtain ⟨c, hc⟩ := exists_char hvalid
    refine ⟨c, ?_⟩
    simp only [String.utf8EncodeChar, hc]
    rw [if_neg (by omega), if_neg (by omega), if_pos (by omega)]
    simp only [List.cons.injEq, ← UInt8.toNat_inj, UInt8.toNat_ofNat', and_true]
    omega
  | @four a b d e ha ha' hb hd he =>
    rw [isSecond_iff] at hb
    rw [isTail_iff] at hd he
    obtain ⟨c, hc⟩ := exists_char
      (v := (a.toNat - 240) * 262144 + (b.toNat - 128) * 4096 + (d.toNat - 128) * 64 + (e.toNat - 128))
      (.inr ⟨by omega, by omega⟩)
    refine ⟨c, ?_⟩
    simp only [String.utf8EncodeChar, hc]
    rw [if_neg (by omega), if_neg (by omega), if_neg (by omega)]
    simp only [List.cons.injEq, ← UInt8.toNat_inj, UInt8.toNat_ofNat', and_true]
    omega

/-! ## The first character -/

/-- A character of several bytes has none below 128. -/
theorem Character.ascii_free {char rest : Bytes} (h : Character char rest) :
    char.length = 1 ∨ ∀ b ∈ char, 128 ≤ b.toNat := by
  cases h with
  | point c => exact (sequence_encode c).ascii_free
  | stray => exact .inl rfl

theorem Character.head_mem {char rest more : Bytes} {a : UInt8} (h : Character char rest)
    (heq : char ++ rest = a :: more) : a ∈ char := by
  cases char with
  | nil =>
    generalize hnil : ([] : Bytes) = char at h
    cases h with
    | point c => exact absurd hnil.symm String.utf8EncodeChar_ne_nil
    | stray => cases hnil
  | cons b char =>
    obtain ⟨rfl, -⟩ := List.cons_eq_cons.mp heq
    exact List.mem_cons_self

/-- `Utf8.first` finds the character at the front. -/
theorem character_iff {char rest more : Bytes} {a : UInt8} (h : char ++ rest = a :: more) :
    Character char rest ↔ char = (first a more).bytes := by
  constructor
  · intro hchar
    cases hchar with
    | point c => exact ((sequence_encode c).first_eq h).symm
    | @stray b _ hb =>
      rw [List.singleton_append] at h
      obtain ⟨rfl, rfl⟩ := List.cons_eq_cons.mp h
      rcases sequence_or_stray b rest with hs | ⟨hs, -⟩
      · obtain ⟨c, hc⟩ := hs.exists_encode
        have hstarts := Utf8.first_bytes_append b rest
        rw [hc] at hstarts
        exact absurd ⟨_, hstarts⟩ (hb c)
      · exact hs.symm
  · intro hchar
    rcases sequence_or_stray a more with hs | ⟨hs, -⟩
    · obtain ⟨c, hc⟩ := hs.exists_encode
      rw [hchar, hc]
      exact .point c
    · rw [hs] at hchar
      subst hchar
      rw [List.singleton_append] at h
      obtain ⟨-, rfl⟩ := List.cons_eq_cons.mp h
      by_cases hpoint : ∃ c : Char, String.utf8EncodeChar c <+: a :: rest
      · -- the byte is then a code point by itself
        obtain ⟨c, t, ht⟩ := hpoint
        have hfirst := (sequence_encode c).first_eq ht
        rw [hs] at hfirst
        rw [hfirst]
        exact .point c
      · exact .stray fun c hc => hpoint ⟨c, hc⟩

end Lox.Lexical
