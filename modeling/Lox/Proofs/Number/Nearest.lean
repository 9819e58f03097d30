/-
  Lox.Proofs.Number.Nearest — rounding to a double depends on the ratio only, and leaves
  doubles as they are. The exponent that `floorLog` finds is the binary logarithm of the
  ratio; what is left to round is the ratio over a power of two. So equal ratios have the
  same nearest double (`nearest_congr`), and a double is the nearest one to the fraction
  that it is equal to (`nearest_toDecimal`).
-/

import Lox.Number.Format
import Mathlib.Algebra.Order.Field.Power
import Mathlib.Data.Int.Log
import Mathlib.Data.Rat.Floor
import Mathlib.Tactic.FieldSimp
import Mathlib.Tactic.NormNum
import Mathlib.Tactic.Positivity
import Mathlib.Tactic.Ring

namespace Lox.Number

/-! ## Quotients -/

theorem roundDiv_mul_right (num den : Nat) {c : Nat} (hc : 0 < c) : roundDiv (num * c) (den * c) = roundDiv num den := by
  have hquotient : num * c / (den * c) = num / den := Nat.mul_div_mul_right num den hc
  have hrest : num * c % (den * c) = num % den * c := Nat.mul_mod_mul_right c num den
  have hbelow : 2 * (num % den * c) < den * c ↔ 2 * (num % den) < den := by
    rw [← Nat.mul_assoc]
    exact Nat.mul_lt_mul_right hc
  have habove : den * c < 2 * (num % den * c) ↔ den < 2 * (num % den) := by
    rw [← Nat.mul_assoc]
    exact Nat.mul_lt_mul_right hc
  simp only [roundDiv, hquotient, hrest, hbelow, habove]

/-- Equal ratios are rounded to the same integer. -/
theorem roundDiv_congr {num den num' den' : Nat} (hden : 0 < den) (hden' : 0 < den') (h : num * den' = num' * den) :
    roundDiv num den = roundDiv num' den' := by
  rw [← roundDiv_mul_right num den hden', ← roundDiv_mul_right num' den' hden, h, Nat.mul_comm den]

theorem roundDiv_mul (m : Nat) {den : Nat} (hden : 0 < den) : roundDiv (m * den) den = m := by
  have hone := roundDiv_mul_right m 1 hden
  rw [Nat.one_mul] at hone
  rw [hone]
  simp [roundDiv, Nat.mod_one]

/-! ## Ratios -/

theorem scaleDown_den (num : Nat) {den : Nat} (hden : 0 < den) (e : Int) : 0 < (scaleDown num den e).2 := by
  cases e with
  | ofNat k => exact Nat.mul_pos hden (Nat.pow_pos Nat.two_pos)
  | negSucc k => exact hden

/-- Scaling multiplies the ratio by a power of two, exactly. -/
theorem scaleDown_ratio (num den : Nat) (e : Int) :
    ((scaleDown num den e).1 : ℚ) / (scaleDown num den e).2 = num / den * 2 ^ (-e) := by
  cases e with
  | ofNat k =>
    show (num : ℚ) / ((den * 2 ^ k : Nat) : ℚ) = num / den * 2 ^ (-(k : Int))
    rw [Nat.cast_mul, Nat.cast_pow, Nat.cast_ofNat, zpow_neg, zpow_natCast, div_mul_eq_div_div, div_eq_mul_inv (_ / _)]
  | negSucc k =>
    show ((num * 2 ^ (k + 1) : Nat) : ℚ) / den = num / den * 2 ^ (-Int.negSucc k)
    rw [Nat.cast_mul, Nat.cast_pow, Nat.cast_ofNat, Int.neg_negSucc, zpow_natCast, mul_div_right_comm]

theorem log_eq_of_bounds {q : ℚ} {e : Int} (hpos : 0 < q) (hlow : (2 : ℚ) ^ e ≤ q) (hhigh : q < (2 : ℚ) ^ (e + 1)) :
    Int.log 2 q = e := by
  have hle : e ≤ Int.log 2 q := (Int.zpow_le_iff_le_log one_lt_two hpos).mp hlow
  have hlt : Int.log 2 q < e + 1 := (Int.lt_zpow_iff_log_lt one_lt_two hpos).mp hhigh
  omega

/-- A ratio is less than a factor of two away from the one of the leading bits. -/
theorem ratio_bounds {num den : Nat} (hnum : 0 < num) (hden : 0 < den) :
    (2 : ℚ) ^ ((num.log2 : Int) - den.log2 - 1) ≤ num / den ∧ (num : ℚ) / den < 2 ^ ((num.log2 : Int) - den.log2 + 1) := by
  have hden' : (0 : ℚ) < den := Nat.cast_pos.mpr hden
  have hnumlow : (2 : ℚ) ^ (num.log2 : Int) ≤ num := by
    rw [zpow_natCast]
    exact_mod_cast Nat.log2_self_le hnum.ne'
  have hnumhigh : (num : ℚ) < 2 ^ ((num.log2 : Int) + 1) := by
    rw [← Nat.cast_succ, zpow_natCast]
    exact_mod_cast Nat.lt_log2_self
  have hdenlow : (2 : ℚ) ^ (den.log2 : Int) ≤ den := by
    rw [zpow_natCast]
    exact_mod_cast Nat.log2_self_le hden.ne'
  have hdenhigh : (den : ℚ) < 2 ^ ((den.log2 : Int) + 1) := by
    rw [← Nat.cast_succ, zpow_natCast]
    exact_mod_cast Nat.lt_log2_self
  constructor
  · rw [le_div_iff₀ hden']
    calc (2 : ℚ) ^ ((num.log2 : Int) - den.log2 - 1) * den
        ≤ 2 ^ ((num.log2 : Int) - den.log2 - 1) * 2 ^ ((den.log2 : Int) + 1) := by gcongr
      _ = 2 ^ (num.log2 : Int) := by rw [← zpow_add₀ two_ne_zero]; congr 1; ring
      _ ≤ num := hnumlow
  · rw [div_lt_iff₀ hden']
    calc (num : ℚ) < 2 ^ ((num.log2 : Int) + 1) := hnumhigh
      _ = 2 ^ ((num.log2 : Int) - den.log2 + 1) * 2 ^ (den.log2 : Int) := by
        rw [← zpow_add₀ two_ne_zero]; congr 1; ring
      _ ≤ 2 ^ ((num.log2 : Int) - den.log2 + 1) * den := by gcongr

/-- The exponent that is found is the binary logarithm, rounded down. -/
theorem floorLog_eq_log {num den : Nat} (hnum : 0 < num) (hden : 0 < den) :
    floorLog num den = Int.log 2 ((num : ℚ) / den) := by
  have hpos : (0 : ℚ) < num / den := div_pos (Nat.cast_pos.mpr hnum) (Nat.cast_pos.mpr hden)
  obtain ⟨hlow, hhigh⟩ := ratio_bounds hnum hden
  unfold floorLog
  generalize (num.log2 : Int) - den.log2 = e at hlow hhigh
  have hscaled := scaleDown_den num hden e
  -- The estimate is met exactly if the scaled ratio is at least one.
  have hmet : (scaleDown num den e).2 ≤ (scaleDown num den e).1 ↔ (2 : ℚ) ^ e ≤ num / den := by
    rw [← @Nat.cast_le ℚ, ← one_le_div₀ (Nat.cast_pos.mpr hscaled), scaleDown_ratio, zpow_neg, ← div_eq_mul_inv,
      one_le_div₀ (zpow_pos two_pos e)]
  by_cases hle : (scaleDown num den e).2 ≤ (scaleDown num den e).1
  · refine (if_pos hle).trans ?_
    exact (log_eq_of_bounds hpos (hmet.mp hle) hhigh).symm
  · have hbelow : (num : ℚ) / den < 2 ^ (e - 1 + 1) := by
      rw [sub_add_cancel]
      exact lt_of_not_ge fun h => hle (hmet.mpr h)
    refine (if_neg hle).trans ?_
    exact (log_eq_of_bounds hpos hlow hbelow).symm

/-! ## Nearest doubles -/

theorem nearest_zero (den : Nat) : nearest 0 den = 0 := if_pos rfl

/-- The last bit weighs what the logarithm leaves after 53 bits, but never less than the smallest
double. -/
theorem unitExponent_eq {num den : Nat} (hnum : 0 < num) (hden : 0 < den) :
    unitExponent num den = max (Int.log 2 ((num : ℚ) / den) - 52) (-1074) := by
  unfold unitExponent
  rw [floorLog_eq_log hnum hden]

theorem mul_eq_of_ratio {num den num' den' : Nat} (hden : 0 < den) (hden' : 0 < den')
    (h : (num : ℚ) / den = num' / den') : num * den' = num' * den := by
  have hcross := (div_eq_div_iff (Nat.cast_ne_zero.mpr hden.ne') (Nat.cast_ne_zero.mpr hden'.ne')).mp h
  exact_mod_cast hcross

/-- Equal ratios have the same nearest double. -/
theorem nearest_congr {num den num' den' : Nat} (hden : 0 < den) (hden' : 0 < den') (h : num * den' = num' * den) :
    nearest num den = nearest num' den' := by
  by_cases hnum : num = 0
  · have hnum' : num' = 0 := by
      rw [hnum, Nat.zero_mul] at h
      exact (Nat.mul_eq_zero.mp h.symm).resolve_right hden.ne'
    rw [hnum, hnum', nearest_zero, nearest_zero]
  have hnum' : num' ≠ 0 := by
    intro hzero
    rw [hzero, Nat.zero_mul] at h
    exact (Nat.mul_ne_zero hnum hden'.ne') h
  have hratio : (num : ℚ) / den = num' / den' := by
    rw [div_eq_div_iff (Nat.cast_ne_zero.mpr hden.ne') (Nat.cast_ne_zero.mpr hden'.ne')]
    exact_mod_cast h
  have hunit : unitExponent num den = unitExponent num' den' := by
    rw [unitExponent_eq (Nat.pos_of_ne_zero hnum) hden, unitExponent_eq (Nat.pos_of_ne_zero hnum') hden', hratio]
  have hround : roundDiv (scaleDown num den (unitExponent num den)).1 (scaleDown num den (unitExponent num den)).2 =
      roundDiv (scaleDown num' den' (unitExponent num' den')).1 (scaleDown num' den' (unitExponent num' den')).2 := by
    have hscaled := scaleDown_den num hden (unitExponent num den)
    have hscaled' := scaleDown_den num' hden' (unitExponent num' den')
    refine roundDiv_congr hscaled hscaled' (mul_eq_of_ratio hscaled hscaled' ?_)
    rw [scaleDown_ratio, scaleDown_ratio, hratio, hunit]
  unfold nearest
  rw [if_neg hnum, if_neg hnum']
  dsimp only
  rw [hround, hunit]

/-- An integer of at most 53 bits times the unit that goes with it is not rounded. -/
theorem nearest_exact {num den m : Nat} {e : Int} (hden : 0 < den) (hm : 0 < m)
    (hratio : (num : ℚ) / den = m * 2 ^ e) (hunit : max (Int.log 2 ((m : ℚ) * 2 ^ e) - 52) (-1074) = e)
    (hfits : (e + 1074).toNat * 2 ^ 52 + m ≤ infinity) : nearest num den = (e + 1074).toNat * 2 ^ 52 + m := by
  have hnum : num ≠ 0 := by
    intro hzero
    rw [hzero, Nat.cast_zero, zero_div] at hratio
    have hpos : (0 : ℚ) < m * 2 ^ e := mul_pos (Nat.cast_pos.mpr hm) (zpow_pos two_pos e)
    exact hpos.ne hratio
  have hexponent : unitExponent num den = e := by
    rw [unitExponent_eq (Nat.pos_of_ne_zero hnum) hden, hratio, hunit]
  have hscaled := scaleDown_den num hden e
  have hvalue := scaleDown_ratio num den e
  rw [hratio, mul_assoc, ← zpow_add₀ two_ne_zero, add_neg_cancel, zpow_zero, mul_one,
    div_eq_iff (Nat.cast_ne_zero.mpr hscaled.ne')] at hvalue
  have hround : (scaleDown num den e).1 = m * (scaleDown num den e).2 := by exact_mod_cast hvalue
  unfold nearest
  rw [if_neg hnum, hexponent]
  dsimp only
  rw [hround, roundDiv_mul m hscaled]
  exact Nat.min_eq_left hfits

/-! ## Doubles -/

theorem toDecimal_ratio (x : Dyadic) : (x.toDecimal.numeral : ℚ) / (10 ^ x.toDecimal.places : Nat) = x.mantissa * 2 ^ x.exponent := by
  obtain ⟨m, e⟩ := x
  cases e with
  | ofNat k =>
    show ((m * 2 ^ k : Nat) : ℚ) / ((10 ^ 0 : Nat) : ℚ) = m * 2 ^ (k : Int)
    rw [zpow_natCast, pow_zero, Nat.cast_one, div_one, Nat.cast_mul, Nat.cast_pow, Nat.cast_ofNat]
  | negSucc k =>
    show ((m * 5 ^ (k + 1) : Nat) : ℚ) / ((10 ^ (k + 1) : Nat) : ℚ) = m * 2 ^ (Int.negSucc k)
    have hten : (10 : ℚ) ^ (k + 1) = 5 ^ (k + 1) * 2 ^ (k + 1) := by
      rw [← mul_pow]
      norm_num
    rw [zpow_negSucc, Nat.cast_mul, Nat.cast_pow, Nat.cast_pow, Nat.cast_ofNat, Nat.cast_ofNat, hten]
    field_simp

/-- An integer times a power of two that fits is its own nearest double. -/
theorem nearest_dyadic {m : Nat} {e : Int} (hm : 0 < m)
    (hunit : max (Int.log 2 ((m : ℚ) * 2 ^ e) - 52) (-1074) = e) (hfits : (e + 1074).toNat * 2 ^ 52 + m ≤ infinity) :
    (Dyadic.mk m e).toDecimal.nearest = (e + 1074).toNat * 2 ^ 52 + m :=
  nearest_exact (Nat.pow_pos (by decide)) hm (toDecimal_ratio ⟨m, e⟩) hunit hfits

theorem nearest_dyadic_zero (e : Int) : (Dyadic.mk 0 e).toDecimal.nearest = 0 := by
  have hnumeral : (Dyadic.mk 0 e).toDecimal.numeral = 0 := by
    cases e <;> exact Nat.zero_mul _
  unfold Decimal.nearest
  rw [hnumeral, nearest_zero]

theorem log_lt {m k : Nat} (hm : 0 < m) (h : m < 2 ^ k) (e : Int) : Int.log 2 ((m : ℚ) * 2 ^ e) < k + e := by
  have hpos : (0 : ℚ) < m * 2 ^ e := mul_pos (Nat.cast_pos.mpr hm) (zpow_pos two_pos e)
  have hbound : (m : ℚ) < 2 ^ k := by exact_mod_cast h
  rw [← Int.lt_zpow_iff_log_lt one_lt_two hpos, Nat.cast_ofNat, zpow_add₀ two_ne_zero, zpow_natCast]
  exact mul_lt_mul_of_pos_right hbound (zpow_pos two_pos e)

theorem le_log {m k : Nat} (hm : 0 < m) (h : 2 ^ k ≤ m) (e : Int) : k + e ≤ Int.log 2 ((m : ℚ) * 2 ^ e) := by
  have hpos : (0 : ℚ) < m * 2 ^ e := mul_pos (Nat.cast_pos.mpr hm) (zpow_pos two_pos e)
  have hbound : (2 : ℚ) ^ k ≤ m := by exact_mod_cast h
  rw [← Int.zpow_le_iff_le_log one_lt_two hpos, Nat.cast_ofNat, zpow_add₀ two_ne_zero, zpow_natCast]
  exact mul_le_mul_of_nonneg_right hbound (zpow_pos two_pos e).le

/-- A double is the nearest one to the decimal fraction that it is equal to. -/
theorem nearest_toDecimal {bits : Nat} (h : bits < infinity) : (ofBits bits).toDecimal.nearest = bits := by
  unfold infinity at h
  by_cases hsmall : bits < 2 ^ 52
  · have hbits : ofBits bits = ⟨bits, -1074⟩ := if_pos hsmall
    rw [hbits]
    by_cases hzero : bits = 0
    · rw [hzero]
      exact nearest_dyadic_zero _
    · have hpos : 0 < bits := Nat.pos_of_ne_zero hzero
      have hlog := log_lt hpos hsmall (-1074)
      rw [nearest_dyadic hpos (by omega) (by unfold infinity; omega)]
      omega
  · have hbits : ofBits bits = ⟨bits % 2 ^ 52 + 2 ^ 52, ((bits / 2 ^ 52 : Nat) : Int) - 1075⟩ := if_neg hsmall
    rw [hbits]
    have hpos : 0 < bits % 2 ^ 52 + 2 ^ 52 := by omega
    have hlow := le_log hpos (show 2 ^ 52 ≤ bits % 2 ^ 52 + 2 ^ 52 by omega) (((bits / 2 ^ 52 : Nat) : Int) - 1075)
    have hhigh := log_lt hpos (show bits % 2 ^ 52 + 2 ^ 52 < 2 ^ 53 by omega) (((bits / 2 ^ 52 : Nat) : Int) - 1075)
    rw [nearest_dyadic hpos (by omega) (by unfold infinity; omega)]
    omega

end Lox.Number
