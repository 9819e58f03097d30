/-
  Lox.Proofs.Number.Printed — printed numbers read back. Digits are only left out where the
  rest still has the same nearest double (`shorten_reads`), and the positional layout denotes the
  number that the digits and the place of the point stand for (`read_positional`). So reading
  the text of a finite nonnegative double gives that double (`read_print`), and no two of the
  values that a literal can have are printed alike (`print_injective`).

  That packing undoes unpacking of the bits of a double is known to the library only as a whole,
  which is why all of it is imported here.
-/

import Lox.Proofs.Lexical
import Lox.Proofs.Number.Nearest
import Mathlib

namespace Lox

/-! ## Digits -/

namespace Text

theorem isDigit_digit (n : Nat) : isDigit (digit n) = true := by
  simp [isDigit, digit, UInt8.le_iff_toNat_le]
  omega

theorem decimal_isDigit (n : Nat) : ∀ c ∈ decimal n, isDigit c = true := by
  fun_induction decimal n with
  | case1 n _ =>
    intro c hc
    rw [List.mem_singleton.mp hc]
    exact isDigit_digit n
  | case2 n _ ih =>
    intro c hc
    rcases List.mem_append.mp hc with hc | hc
    · exact ih c hc
    · rw [List.mem_singleton.mp hc]
      exact isDigit_digit n

theorem value_append (a b : Bytes) : value (a ++ b) = value a * 10 ^ b.length + value b := by
  have hstart : ∀ (b : Bytes) (v : Nat), b.foldl (fun v d => 10 * v + (d.toNat - 48)) v = v * 10 ^ b.length + value b := by
    intro b
    induction b with
    | nil => simp [value]
    | cons d b ih =>
      intro v
      have hcons : value (d :: b) = (10 * 0 + (d.toNat - 48)) * 10 ^ b.length + value b := ih _
      rw [List.foldl_cons, ih, hcons, List.length_cons, pow_succ]
      ring
  rw [value, List.foldl_append, hstart]
  rfl

theorem value_digit (n : Nat) : value [digit n] = n % 10 := by
  simp [value, digit]
  omega

/-- Decimal digits denote the number that they were made from. -/
theorem value_decimal (n : Nat) : value (decimal n) = n := by
  fun_induction decimal n with
  | case1 n h =>
    rw [value_digit]
    omega
  | case2 n _ ih =>
    rw [value_append, ih, value_digit, List.length_singleton]
    omega

end Text

namespace Number

open Text (isDigit value)

theorem zeros_isDigit (n : Nat) : ∀ c ∈ zeros n, isDigit c = true := by
  intro c hc
  rw [List.eq_of_mem_replicate hc]
  rfl

theorem value_zeros (n : Nat) : value (zeros n) = 0 := by
  induction n with
  | zero => rfl
  | succ n ih => exact ih

theorem value_append_zeros (digits : Bytes) (n : Nat) : value (digits ++ zeros n) = value digits * 10 ^ n := by
  rw [Text.value_append, value_zeros, zeros, List.length_replicate, Nat.add_zero]

theorem value_zeros_append (n : Nat) (digits : Bytes) : value (zeros n ++ digits) = value digits := by
  rw [Text.value_append, value_zeros, Nat.zero_mul, Nat.zero_add]

theorem stripZeros_append (digits : Bytes) : ∃ n, digits = stripZeros digits ++ zeros n := by
  let last := digits.reverse.takeWhile (· == 48)
  have hzeros : last = zeros last.length := by
    refine List.eq_replicate_of_mem fun c hc => ?_
    simpa using List.mem_takeWhile_imp hc
  refine ⟨last.length, ?_⟩
  calc digits = (last ++ digits.reverse.dropWhile (· == 48)).reverse := by
        rw [List.takeWhile_append_dropWhile, List.reverse_reverse]
    _ = stripZeros digits ++ last.reverse := List.reverse_append
    _ = stripZeros digits ++ zeros last.length := by
        rw [hzeros, zeros, List.reverse_replicate, List.length_replicate]
        rfl

/-! ## Leaving out digits -/

theorem neighbour?_reads {bits drop numeral : Nat} {exact : Decimal} (h : neighbour? bits exact drop = some numeral) :
    readsBack bits exact.places numeral drop = true := by
  unfold neighbour? at h
  dsimp only at h
  generalize exact.numeral / Nat.pow 10 drop = below at h
  split at h
  · rename_i hbelow _
    cases h
    exact hbelow
  · rename_i _ habove
    cases h
    exact habove
  · cases h
  · rename_i hbelow habove
    split at h
    · cases h
      exact hbelow
    split at h
    · cases h
      exact habove
    -- Of two equally near numerals it is the even one, and both read back.
    · obtain heven | hodd := Nat.mod_two_eq_zero_or_one below
      · rw [heven] at h
        cases h
        exact hbelow
      · rw [hodd] at h
        cases h
        exact habove

/-- However many digits are left out, the rest has the same nearest double. -/
theorem shorten_reads {bits : Nat} {exact : Decimal} (h : exact.nearest = bits) (drop : Nat) :
    (Decimal.mk ((shorten bits exact drop).1 * 10 ^ (shorten bits exact drop).2) exact.places).nearest = bits := by
  induction drop with
  | zero =>
    show (Decimal.mk (exact.numeral * 10 ^ 0) exact.places).nearest = bits
    rw [pow_zero, Nat.mul_one]
    exact h
  | succ drop ih =>
    rw [shorten]
    cases hnext : neighbour? bits exact (drop + 1) with
    | none => exact ih
    | some numeral => exact beq_iff_eq.mp (neighbour?_reads hnext)

/-! ## Layout -/

theorem read_whole {whole : Bytes} (h : ∀ c ∈ whole, isDigit c = true) :
    read whole = Float.ofBits (Decimal.mk (value whole) 0).nearest.toUInt64 := by
  have htake : whole.takeWhile isDigit = whole := List.takeWhile_eq_self_iff.mpr h
  have hdrop : whole.dropWhile isDigit = [] := List.dropWhile_eq_nil_iff.mpr h
  simp only [read, htake, hdrop, List.drop_nil, List.append_nil, List.length_nil]

/-- A point divides a literal into digits before and after it. -/
theorem read_pointed {whole fraction : Bytes} (h : ∀ c ∈ whole, isDigit c = true) :
    read (whole ++ utf8 "." ++ fraction) =
      Float.ofBits (Decimal.mk (value (whole ++ fraction)) fraction.length).nearest.toUInt64 := by
  have hpoint : utf8 "." = [46] := by decide
  have htext : whole ++ utf8 "." ++ fraction = whole ++ 46 :: fraction := by rw [hpoint, List.append_assoc]; rfl
  have htake : (whole ++ 46 :: fraction).takeWhile isDigit = whole := by
    rw [List.takeWhile_append_of_pos h]
    exact List.append_nil _
  have hdrop : (whole ++ 46 :: fraction).dropWhile isDigit = 46 :: fraction := by
    rw [List.dropWhile_append_of_pos h]
    rfl
  simp only [read, htext, htake, hdrop, List.drop_one, List.tail_cons]

theorem positional_whole {x : Digits} (h : x.digits = []) : ∃ n, positional x = zeros (n + 1) := by
  unfold positional
  simp only [h, List.isEmpty_nil, if_true, List.take_nil, List.nil_append, List.length_nil]
  by_cases hpoint : x.point ≤ 0
  · exact ⟨0, if_pos hpoint⟩
  · refine ⟨x.point.toNat - 1, (if_neg hpoint).trans (congrArg zeros ?_)⟩
    omega

theorem positional_small {x : Digits} (hdigits : x.digits ≠ []) (hpoint : x.point ≤ 0) :
    positional x = zeros 1 ++ utf8 "." ++ (zeros (-x.point).toNat ++ x.digits) := by
  have hfraction : (zeros (-x.point).toNat ++ x.digits).isEmpty = false := by simp [hdigits]
  have hzero : x.point.toNat = 0 := by omega
  unfold positional
  simp only [hzero, List.drop_zero, List.isEmpty_eq_false_iff.mpr hdigits, hfraction, if_pos hpoint,
    Bool.false_eq_true, if_false]
  rfl

theorem positional_large {x : Digits} (hpoint : 0 < x.point) (hlong : x.digits.length ≤ x.point.toNat) :
    positional x = x.digits ++ zeros (x.point.toNat - x.digits.length) := by
  have hzero : (-x.point).toNat = 0 := by omega
  unfold positional
  simp only [hzero, List.drop_eq_nil_of_le hlong, List.take_of_length_le hlong, if_neg (show ¬ x.point ≤ 0 by omega)]
  cases x.digits.isEmpty <;> rfl

theorem positional_inside {x : Digits} (hpoint : 0 < x.point) (hshort : x.point.toNat < x.digits.length) :
    positional x = x.digits.take x.point.toNat ++ utf8 "." ++ x.digits.drop x.point.toNat := by
  have hzero : (-x.point).toNat = 0 := by omega
  have hnone : x.point.toNat - x.digits.length = 0 := by omega
  have hdigits : x.digits.isEmpty = false := by
    rw [List.isEmpty_eq_false_iff, ← List.length_pos_iff]
    omega
  have hfraction : (zeros 0 ++ x.digits.drop x.point.toNat).isEmpty = false := by
    rw [List.isEmpty_eq_false_iff, ← List.length_pos_iff]
    simp [zeros]
    omega
  unfold positional
  simp only [hzero, hnone, hdigits, hfraction, if_neg (show ¬ x.point ≤ 0 by omega), Bool.false_eq_true, if_false]
  simp [zeros]

theorem div_pow_ten (v k : Nat) {e : Int} (h : e = -k) : (v : ℚ) / (10 ^ k : Nat) = v * 10 ^ e := by
  rw [h, zpow_neg, zpow_natCast, Nat.cast_pow, Nat.cast_ofNat, div_eq_mul_inv]

/-- What the positional layout denotes: the digits, with the last of them in its place. -/
theorem read_positional {x : Digits} (h : ∀ c ∈ x.digits, isDigit c = true) :
    ∃ numeral places : Nat, read (positional x) = Float.ofBits (Decimal.mk numeral places).nearest.toUInt64 ∧
      (numeral : ℚ) / (10 ^ places : Nat) = value x.digits * 10 ^ (x.point - x.digits.length) := by
  by_cases hdigits : x.digits = []
  · obtain ⟨n, htext⟩ := positional_whole hdigits
    refine ⟨value (zeros (n + 1)), 0, by rw [htext, read_whole (zeros_isDigit _)], ?_⟩
    have hvalue : value x.digits = 0 := by rw [hdigits]; rfl
    rw [value_zeros, hvalue, Nat.cast_zero, zero_div, zero_mul]
  by_cases hpoint : x.point ≤ 0
  · refine ⟨value x.digits, (-x.point).toNat + x.digits.length, ?_, ?_⟩
    · rw [positional_small hdigits hpoint, read_pointed (zeros_isDigit 1), value_zeros_append, value_zeros_append,
        List.length_append, zeros, List.length_replicate]
    · exact div_pow_ten _ _ (by omega)
  by_cases hlong : x.digits.length ≤ x.point.toNat
  · refine ⟨value x.digits * 10 ^ (x.point.toNat - x.digits.length), 0, ?_, ?_⟩
    · rw [positional_large (by omega) hlong, read_whole, value_append_zeros]
      intro c hc
      exact (List.mem_append.mp hc).elim (h c) (zeros_isDigit _ c)
    · have hplace : x.point - x.digits.length = ((x.point.toNat - x.digits.length : Nat) : Int) := by omega
      rw [hplace, zpow_natCast, pow_zero, Nat.cast_one, div_one, Nat.cast_mul, Nat.cast_pow, Nat.cast_ofNat]
  · refine ⟨value x.digits, x.digits.length - x.point.toNat, ?_, ?_⟩
    · rw [positional_inside (by omega) (by omega), read_pointed fun c hc => h c (List.mem_of_mem_take hc),
        List.take_append_drop, List.length_drop]
    · exact div_pow_ten _ _ (by omega)

/-- What is laid out is a number token. -/
theorem lexeme_positional {x : Digits} (h : ∀ c ∈ x.digits, isDigit c = true) :
    Lexical.Lexeme .number (positional x) := by
  by_cases hdigits : x.digits = []
  · obtain ⟨n, htext⟩ := positional_whole hdigits
    rw [htext]
    exact .whole (by simp [zeros]) (zeros_isDigit _)
  by_cases hpoint : x.point ≤ 0
  · rw [positional_small hdigits hpoint]
    refine .decimal (by simp [zeros]) (zeros_isDigit 1) (by simp [hdigits]) fun c hc => ?_
    exact (List.mem_append.mp hc).elim (zeros_isDigit _ c) (h c)
  by_cases hlong : x.digits.length ≤ x.point.toNat
  · rw [positional_large (by omega) hlong]
    refine .whole (by simp [hdigits]) fun c hc => ?_
    exact (List.mem_append.mp hc).elim (h c) (zeros_isDigit _ c)
  · rw [positional_inside (by omega) (by omega)]
    have htake : x.digits.take x.point.toNat ≠ [] := by
      rw [← List.length_pos_iff, List.length_take]
      omega
    have hdrop : x.digits.drop x.point.toNat ≠ [] := by
      rw [← List.length_pos_iff, List.length_drop]
      omega
    exact .decimal htake (fun c hc => h c (List.mem_of_mem_take hc)) hdrop fun c hc => h c (List.mem_of_mem_drop hc)

/-! ## Doubles -/

open Float.Model in
/-- Up to infinity, the bits of a double can be had back. -/
theorem toBits_ofBits {bits : Nat} (h : bits ≤ infinity) : (Float.ofBits bits.toUInt64).toBits.toNat = bits := by
  unfold infinity at h
  have hnat : bits.toUInt64.toBitVec.toNat = bits := by
    have hsmall : bits < 18446744073709551616 := by omega
    simp [Nat.toUInt64, hsmall]
  -- With all exponent bits set there is no room for a mantissa below the bits of infinity.
  have hvalid : Format.binary64.Valid bits.toUInt64.toBitVec := by
    constructor
    intro hexponent hmantissa
    have he := congrArg BitVec.toNat hexponent
    refine absurd (BitVec.eq_of_toNat_eq ?_) hmantissa
    simp only [UnpackedFloat.unpackExponent, UnpackedFloat.unpackMantissa, BitVec.toNat_cast, BitVec.extractLsb_toNat,
      hnat] at he ⊢
    simp at he ⊢
    omega
  show (UnpackedFloat.pack Format.binary64 (UnpackedFloat.unpack Format.binary64 bits.toUInt64.toBitVec)).toNat = bits
  rw [UnpackedFloat.pack_unpack_of_valid hvalid, hnat]

theorem nearest_le_infinity (num den : Nat) : nearest num den ≤ infinity := by
  unfold nearest
  split
  · exact Nat.zero_le _
  · exact Nat.min_le_right _ _

/-- The values that a literal can have. -/
def Written (x : Float) : Prop := ∃ bits ≤ infinity, x = Float.ofBits bits.toUInt64

/-- Whatever is read as a literal is finite and not negative, or infinity. -/
theorem read_written (text : Bytes) : Written (read text) := ⟨_, nearest_le_infinity _ _, rfl⟩

theorem shifted_ratio (v n zeros places : Nat) {e : Int} (h : e = n + zeros - places) :
    (v : ℚ) * 10 ^ e = (v * 10 ^ n * 10 ^ zeros : Nat) / (10 ^ places : Nat) := by
  have hten : (10 : ℚ) ≠ 0 := by norm_num
  rw [h, zpow_sub₀ hten, zpow_add₀ hten, zpow_natCast, zpow_natCast, zpow_natCast]
  push_cast
  ring

/-- Decimal fractions of the same value have the same nearest double. -/
theorem Decimal.nearest_congr {x y : Decimal} (h : (x.numeral : ℚ) / (10 ^ x.places : Nat) = y.numeral / (10 ^ y.places : Nat)) :
    x.nearest = y.nearest := by
  have hx : 0 < 10 ^ x.places := Nat.pow_pos (by decide)
  have hy : 0 < 10 ^ y.places := Nat.pow_pos (by decide)
  exact Number.nearest_congr hx hy (mul_eq_of_ratio hx hy h)

theorem shortest_isDigit (bits : Nat) : ∀ c ∈ (shortest bits).digits, isDigit c = true := by
  intro c hc
  let exact := (ofBits bits).toDecimal
  let kept := shorten bits exact ((Text.decimal exact.numeral).length - 1)
  obtain ⟨n, hstrip⟩ := stripZeros_append (Text.decimal kept.1)
  refine Text.decimal_isDigit kept.1 c ?_
  rw [hstrip]
  exact List.mem_append_left _ hc

/-- The digits that are printed have the double as their nearest one. -/
theorem read_shortest {bits : Nat} (h : bits < infinity) : read (positional (shortest bits)) = Float.ofBits bits.toUInt64 := by
  let exact := (ofBits bits).toDecimal
  let kept := shorten bits exact ((Text.decimal exact.numeral).length - 1)
  have hreads := shorten_reads (nearest_toDecimal h) ((Text.decimal exact.numeral).length - 1)
  have hshortest : shortest bits =
      ⟨stripZeros (Text.decimal kept.1), ((Text.decimal kept.1).length : Int) + kept.2 - exact.places⟩ := rfl
  obtain ⟨n, hstrip⟩ := stripZeros_append (Text.decimal kept.1)
  obtain ⟨numeral, places, hread, hratio⟩ := read_positional (shortest_isDigit bits)
  have hvalue : value (shortest bits).digits * 10 ^ n = kept.1 := by
    rw [hshortest, ← value_append_zeros, ← hstrip, Text.value_decimal]
  have hlength : (Text.decimal kept.1).length = (stripZeros (Text.decimal kept.1)).length + n := by
    have hcount := congrArg List.length hstrip
    rwa [List.length_append, zeros, List.length_replicate] at hcount
  have hpoint : (shortest bits).point - (shortest bits).digits.length = n + kept.2 - exact.places := by
    rw [hshortest]
    dsimp only
    omega
  rw [shifted_ratio _ n kept.2 exact.places hpoint, hvalue] at hratio
  have hnearest : (Decimal.mk numeral places).nearest = bits :=
    (Decimal.nearest_congr (x := ⟨numeral, places⟩) (y := ⟨kept.1 * 10 ^ kept.2, exact.places⟩) hratio).trans hreads
  rw [hread, hnearest]

/-- Finite doubles are printed with their shortest digits. -/
theorem print_ofBits {bits : Nat} (h : bits < infinity) :
    print (Float.ofBits bits.toUInt64) = positional (shortest bits) := by
  have hsign : bits < signBit := lt_trans h (by decide)
  unfold print format
  simp only [toBits_ofBits h.le, Nat.mod_eq_of_lt hsign]
  rw [if_neg (by omega), if_neg (by omega), if_neg (by omega)]
  rfl

theorem print_infinity : print (Float.ofBits infinity.toUInt64) = utf8 "+Inf" := by
  unfold print format
  simp only [toBits_ofBits (Nat.le_refl infinity)]
  decide

/-- Printed doubles read back. -/
theorem read_print {bits : Nat} (h : bits < infinity) :
    read (print (Float.ofBits bits.toUInt64)) = Float.ofBits bits.toUInt64 := by
  rw [print_ofBits h, read_shortest h]

/-- A literal's value is printed as a number token, or it is infinite. -/
theorem lexeme_print {bits : Nat} (h : bits ≤ infinity) :
    Lexical.Lexeme .number (print (Float.ofBits bits.toUInt64)) ∨ bits = infinity := by
  rcases Nat.lt_or_eq_of_le h with hfinite | rfl
  · rw [print_ofBits hfinite]
    exact .inl (lexeme_positional (shortest_isDigit bits))
  · exact .inr rfl

/-- A number token starts with a digit, and digits and a point are all it has. -/
theorem lexeme_starts {text : Bytes} (h : Lexical.Lexeme .number text) :
    ∃ d more, text = d :: more ∧ isDigit d = true ∧ ∀ c ∈ more, isDigit c = true ∨ c = 46 := by
  cases h with
  | fixed hs => cases hs
  | whole hne hdigits =>
    obtain ⟨d, more, rfl⟩ := List.exists_cons_of_ne_nil hne
    exact ⟨d, more, rfl, hdigits d List.mem_cons_self, fun c hc => .inl (hdigits c (List.mem_cons_of_mem d hc))⟩
  | @decimal _ fraction hne hdigits _ hfraction =>
    obtain ⟨d, more, rfl⟩ := List.exists_cons_of_ne_nil hne
    refine ⟨d, more ++ utf8 "." ++ fraction, rfl, hdigits d List.mem_cons_self, fun c hc => ?_⟩
    have hpoint : utf8 "." = [46] := by decide
    rw [hpoint, List.mem_append, List.mem_append, List.mem_singleton] at hc
    rcases hc with (hc | hc) | hc
    · exact .inl (hdigits c (List.mem_cons_of_mem d hc))
    · exact .inr hc
    · exact .inl (hfraction c hc)

theorem print_ne_infinity {bits : Nat} (h : bits < infinity) :
    print (Float.ofBits bits.toUInt64) ≠ print (Float.ofBits infinity.toUInt64) := by
  obtain ⟨d, more, htext, hdigit, -⟩ := lexeme_starts (lexeme_positional (shortest_isDigit bits))
  have hinf : utf8 "+Inf" = [43, 73, 110, 102] := by decide
  rw [print_ofBits h, print_infinity, htext, hinf]
  intro heq
  obtain ⟨rfl, -⟩ := List.cons_eq_cons.mp heq
  exact absurd hdigit (by decide)

/-- No two values that a literal can have are printed alike. -/
theorem print_injective {m n : Nat} (hm : m ≤ infinity) (hn : n ≤ infinity)
    (h : print (Float.ofBits m.toUInt64) = print (Float.ofBits n.toUInt64)) : m = n := by
  rcases Nat.lt_or_eq_of_le hm with hm' | rfl <;> rcases Nat.lt_or_eq_of_le hn with hn' | rfl
  · have hread : Float.ofBits m.toUInt64 = Float.ofBits n.toUInt64 := by rw [← read_print hm', h, read_print hn']
    rw [← toBits_ofBits hm, hread, toBits_ofBits hn]
  · exact absurd h (print_ne_infinity hm')
  · exact absurd h.symm (print_ne_infinity hn')
  · rfl

end Number

end Lox
