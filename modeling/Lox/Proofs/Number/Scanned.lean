/-
  Lox.Proofs.Number.Scanned — printed numbers in a source. A double that is finite, not
  negative and not the negative zero has its sign bit clear and its exponent bits not all set,
  so its bits are below those of infinity (`toBits_lt_infinity`): these are the doubles that
  literals stand for. What such a double is printed as is one number token with that double as
  its value, and so is the printed value of every literal that is not too large
  (`printed_numbers_scan_back`).
-/

import Lox.Heap
import Lox.Proofs.Lexical.Spaced
import Lox.Proofs.Number.Printed

namespace Lox

namespace Number

/-! ## Doubles that literals stand for -/

open Float.Model

def finiteSign? : UnpackedFloat → Option UnpackedFloat.Sign
  | .zero sign => some sign
  | .finite sign _ _ _ => some sign
  | .infinity _ => none
  | .notANumber => none

theorem fields_of_finite {bits : BitVec Format.binary64.numBits} {sign : UnpackedFloat.Sign}
    (h : finiteSign? (UnpackedFloat.unpack Format.binary64 bits) = some sign) :
    UnpackedFloat.unpackExponent bits ≠ -1#11 ∧
      UnpackedFloat.Sign.ofBitVec (UnpackedFloat.unpackSign bits) = sign := by
  unfold UnpackedFloat.unpack at h
  dsimp only at h
  split at h
  · split at h <;> cases h
  · rename_i hexponent
    refine ⟨hexponent, ?_⟩
    split at h
    · split at h <;> exact Option.some.inj h
    · exact Option.some.inj h

theorem unpackSign_of_positive {bits : BitVec Format.binary64.numBits}
    (h : UnpackedFloat.Sign.ofBitVec (UnpackedFloat.unpackSign bits) = .positive) : UnpackedFloat.unpackSign bits = 0#1 := by
  unfold UnpackedFloat.Sign.ofBitVec at h
  split at h
  · assumption
  · cases h

theorem lt_infinity_of_fields {bits : BitVec Format.binary64.numBits}
    (hexponent : UnpackedFloat.unpackExponent bits ≠ -1#11)
    (hsign : UnpackedFloat.unpackSign bits = 0#1) : bits.toNat < infinity := by
  have hsize : bits.toNat < 2 ^ 64 := bits.isLt
  have hs := congrArg BitVec.toNat hsign
  have he := mt BitVec.eq_of_toNat_eq hexponent
  simp only [UnpackedFloat.unpackSign, UnpackedFloat.unpackExponent, BitVec.toNat_cast, BitVec.extractLsb_toNat] at hs he
  simp at hs he
  unfold infinity
  omega

theorem pack_unpack (x : Float.Model) : Float.Model.pack x.unpack = x := by
  obtain ⟨bits, hvalid⟩ := x
  have hpack : UnpackedFloat.pack Format.binary64 (UnpackedFloat.unpack Format.binary64 bits.toBitVec) = bits.toBitVec :=
    UnpackedFloat.pack_unpack_of_valid hvalid
  simp only [Float.Model.pack, Float.Model.unpack, hpack]

/-- A double is told by what it unpacks to. -/
theorem eq_of_unpack {x y : Float} (h : x.toModel.unpack = y.toModel.unpack) : x = y := by
  obtain ⟨x⟩ := x
  obtain ⟨y⟩ := y
  rw [← pack_unpack x, ← pack_unpack y]
  exact congrArg (Float.ofModel ∘ Float.Model.pack) h

theorem le_iff (x y : Float) : x ≤ y ↔ x.toModel.unpack.le y.toModel.unpack = true := by
  show decide (x.toModel ≤ y.toModel) = true ↔ _
  rw [decide_eq_true_eq]
  rfl

/-- Equality of doubles tells the two zeros apart, which the order does not. -/
theorem finiteSign?_of_nonneg {x : Float} (hfinite : x.isFinite = true) (hsign : 0 ≤ x) (hzero : x ≠ -0.0) :
    finiteSign? x.toModel.unpack = some .positive := by
  have hvalue : x.toModel.unpack.isFinite = true := hfinite
  have hnegative : x.toModel.unpack ≠ .zero .negative := fun h => hzero (eq_of_unpack h)
  have horder : UnpackedFloat.le (.zero .positive) x.toModel.unpack = true := (le_iff 0 x).mp hsign
  generalize x.toModel.unpack = value at hvalue hnegative horder
  rcases value with sign | _ | sign | ⟨sign, mantissa, exponent, hmantissa⟩
  · cases hvalue
  · cases hvalue
  · cases sign
    · exact absurd rfl hnegative
    · rfl
  · cases sign
    · cases horder
    · rfl

/-- A finite number that is not negative has bits below those of infinity. -/
theorem toBits_lt_infinity {x : Float} (hfinite : x.isFinite = true) (hsign : 0 ≤ x) (hzero : x ≠ -0.0) :
    x.toBits.toNat < infinity := by
  obtain ⟨hexponent, hpositive⟩ := fields_of_finite (finiteSign?_of_nonneg hfinite hsign hzero)
  exact lt_infinity_of_fields hexponent (unpackSign_of_positive hpositive)

theorem ofBits_toBits (x : Float) : Float.ofBits x.toBits = x := by
  obtain ⟨x⟩ := x
  exact congrArg Float.ofModel (pack_unpack x)

theorem eq_ofBits (x : Float) : x = Float.ofBits x.toBits.toNat.toUInt64 := by
  rw [Nat.toUInt64, UInt64.ofNat_toNat, ofBits_toBits]

theorem lt_infinity_of_finite {bits : Nat} (hbits : bits ≤ infinity) (h : (Float.ofBits bits.toUInt64).isFinite = true) :
    bits < infinity := by
  refine Nat.lt_of_le_of_ne hbits ?_
  rintro rfl
  have hinfinite : (Float.ofBits infinity.toUInt64).isFinite = false := by decide
  exact Bool.false_ne_true (hinfinite.symm.trans h)

end Number

/-! ## Number tokens -/

open Lexical Number

/-- The text of a number is one token. -/
theorem scan_number {text : Bytes} (h : Lexeme .number text) : scan text = ⟨[⟨.number, text, 1⟩], [], 1, 0⟩ := by
  have hsplit : Segment.split (text ++ []) = ⟨.token .number, text⟩ :: Segment.split [] :=
    (fits_of_ended h ended_nil).split_append
  have hnewlines : Segment.newlines ⟨.token .number, text⟩ = 0 := by
    refine List.count_eq_zero.mpr ?_
    obtain ⟨d, more, rfl, hdigit, hmore⟩ := lexeme_starts h
    intro hmem
    rcases List.mem_cons.mp hmem with rfl | hmem
    · exact absurd hdigit (by decide)
    · exact absurd (hmore _ hmem) (by decide)
  rw [List.append_nil, Segment.split] at hsplit
  rw [scan, hsplit, Scan.ofSegments_cons, hnewlines]
  rfl

/-- Scanning the text finds no fault and one token, a number that is the whole text and has the
value `x`; then it ends. -/
structure ScansAs (text : Bytes) (x : Float) : Prop where
  reports : (scan text).reports = []
  tokens : (scan text).tokens = [⟨.number, text, 1⟩]
  value : (Token.mk .number text 1).literal? = some (.number x)
  dump : (scan text).dump = [(Token.mk .number text 1).dump, Token.endMark 1]

/-- Printed numbers are scanned as the numbers that they are. -/
theorem scansAs_print {bits : Nat} (h : bits < infinity) :
    ScansAs (print (Float.ofBits bits.toUInt64)) (Float.ofBits bits.toUInt64) := by
  have hlexeme : Lexeme .number (print (Float.ofBits bits.toUInt64)) := (lexeme_print h.le).resolve_right h.ne
  have hscan := scan_number hlexeme
  constructor
  · rw [hscan]
  · rw [hscan]
  · rw [Token.literal?, read_print h]
  · rw [hscan, Scan.dump]
    rfl

/-- Every double that is finite, not negative and not the negative zero is printed as a number
that has it as its value, and so is the value of every number token of any source, unless it is
infinite. -/
theorem printed_numbers_scan_back (heap : Heap) :
    (∀ x : Float, x.isFinite = true → 0 ≤ x → x ≠ -0.0 → ScansAs (heap.render (.number x)) x) ∧
    (∀ source, ∀ t ∈ (scan source).tokens, t.kind = .number → ∃ x, t.literal? = some (.number x) ∧
      (x.isFinite = true → ScansAs (heap.render (.number x)) x)) := by
  constructor
  · intro x hfinite hsign hzero
    have hscans := scansAs_print (toBits_lt_infinity hfinite hsign hzero)
    rwa [← eq_ofBits] at hscans
  · intro source t _ hkind
    refine ⟨read t.lexeme, by rw [Token.literal?, hkind], fun hfinite => ?_⟩
    obtain ⟨bits, hbits, hread⟩ := read_written t.lexeme
    rw [hread] at hfinite ⊢
    exact scansAs_print (lt_infinity_of_finite hbits hfinite)

/-- Neither a tenth nor this whole number is a double: each is read as the nearest one. -/
theorem printed_numbers_scan_back_rounded :
    (0.1 : Float).isFinite = true ∧ 0 ≤ (0.1 : Float) ∧ (0.1 : Float) ≠ -0.0 ∧ ScansAs (utf8 "0.1") 0.1 ∧
    (scan (utf8 "9007199254740993")).tokens = [⟨.number, utf8 "9007199254740993", 1⟩] ∧
    ScansAs (utf8 "9007199254740992") (read (utf8 "9007199254740993")) := by
  have hfinite : (0.1 : Float).isFinite = true := by decide
  have hsign : 0 ≤ (0.1 : Float) := by decide
  have hzero : (0.1 : Float) ≠ -0.0 := by decide
  have htokens : (scan (utf8 "9007199254740993")).tokens = [⟨.number, utf8 "9007199254740993", 1⟩] := by decide +kernel
  obtain ⟨hprinted, hwritten⟩ := printed_numbers_scan_back Heap.initial
  refine ⟨hfinite, hsign, hzero, ?_, htokens, ?_⟩
  · have htext : Heap.initial.render (.number 0.1) = utf8 "0.1" := by decide +kernel
    rw [← htext]
    exact hprinted 0.1 hfinite hsign hzero
  · have hmem : (⟨.number, utf8 "9007199254740993", 1⟩ : Token) ∈ (scan (utf8 "9007199254740993")).tokens := by
      rw [htokens]
      exact List.mem_singleton_self _
    obtain ⟨x, hx, hscans⟩ := hwritten _ _ hmem rfl
    cases hx
    have htext : Heap.initial.render (.number (read (utf8 "9007199254740993"))) = utf8 "9007199254740992" := by
      decide +kernel
    rw [← htext]
    exact hscans (by decide +kernel)

end Lox
