import Lox.Decimal.Shortest
import Mathlib.Algebra.Order.Field.Power
import Mathlib.Data.Nat.Cast.Field
import Mathlib.Tactic.NormNum

/-!
# Lox.Proofs.Number.Nearest

Exact numbers are read exactly. A finite ordinal `k` stands for the rational `value k`, and a
quotient of that value is rounded to `k` again (`nearest_of_value`): nothing is lost on the way
through naturals, exponents and rounding. So all the digits of a number read back, and with them the
fewest digits that the search finds (`Decimal.toOrdinal_shortest`).
-/

namespace Lox
namespace Binary64

/-- The number that a finite ordinal stands for. -/
def value (k : Nat) : ℚ := significand k * 2 ^ exponent k

/-! ## Significands and exponents -/

theorem significand_lt (k : Nat) : significand k < 2 * normalStart := by
  have := Nat.mod_lt k (show 0 < normalStart by decide)
  unfold significand
  split <;> omega

/-- A significand has its leading bit, but for the smallest numbers. -/
theorem le_significand_or (k : Nat) : normalStart ≤ significand k ∨ exponent k = minExponent := by
  unfold significand exponent
  split
  · exact .inr rfl
  · exact .inl (Nat.le_add_right _ _)

theorem le_exponent (k : Nat) : minExponent ≤ exponent k := by
  unfold exponent
  split <;> omega

theorem significand_pos {k : Nat} (hk : 0 < k) : 0 < significand k := by
  unfold significand
  split
  · exact hk
  · exact Nat.lt_of_lt_of_le (by decide) (Nat.le_add_right normalStart _)

/-- Exponent and significand make up the ordinal again: the leading bit counts as one more in the
exponent. -/
theorem ordinal_eq (k : Nat) :
    (exponent k - minExponent).toNat * normalStart + significand k = k := by
  unfold exponent significand
  split
  · simp
  · rename_i hk
    have hdiv : 1 ≤ k / normalStart :=
      (Nat.one_le_div_iff (by decide)).2 (Nat.le_of_not_lt hk)
    have hexp : (minExponent + ((k / normalStart - 1 : Nat) : Int) - minExponent).toNat =
        k / normalStart - 1 := by omega
    have hmod := Nat.div_add_mod k normalStart
    rw [hexp, Nat.sub_mul, Nat.one_mul, ← Nat.add_assoc, Nat.sub_add_cancel, Nat.mul_comm, hmod]
    exact Nat.le_mul_of_pos_left _ hdiv

/-! ## Quotients of naturals -/

theorem pow_toNat (b : ℚ) {e : Int} (he : 0 ≤ e) : b ^ e.toNat = b ^ e := by
  rw [← zpow_natCast, Int.toNat_of_nonneg he]

theorem scaled_pos (m : Nat) (e : Int) : 0 < (scaled m e).2 := by
  unfold scaled
  split
  · exact Nat.one_pos
  · exact Nat.pow_pos Nat.two_pos

theorem scaled_value (m : Nat) (e : Int) :
    ((scaled m e).1 : ℚ) / (scaled m e).2 = m * 2 ^ e := by
  unfold scaled
  split
  · rename_i he
    simp [pow_toNat 2 he]
  · rename_i he
    simp [pow_toNat 2 (e := -e) (by omega)]

theorem ratio_value (k : Nat) : ((ratio k).1 : ℚ) / (ratio k).2 = value k :=
  scaled_value _ _

theorem unscale_pos {den : Nat} (hd : 0 < den) (num : Nat) (e : Int) :
    0 < (unscale num den e).2 := by
  unfold unscale
  split
  · exact Nat.mul_pos hd (Nat.pow_pos Nat.two_pos)
  · exact hd

theorem unscale_value (num den : Nat) (e : Int) :
    ((unscale num den e).1 : ℚ) / (unscale num den e).2 = num / den / 2 ^ e := by
  unfold unscale
  split
  · rename_i he
    simp [pow_toNat 2 he, div_div]
  · rename_i he
    simp [pow_toNat 2 (e := -e) (by omega), div_eq_mul_inv, mul_right_comm]

/-! ## Rounding -/

/-- A positive quotient lies between two powers of two next to each other, and the exponent that
fits leaves 53 bits before the point, unless that would be less than the smallest exponent. -/
theorem exists_binade {num den : Nat} (hn : 0 < num) (hd : 0 < den) :
    ∃ f : Int, fittingExponent num den = max minExponent f ∧
      (2 : ℚ) ^ (f + 52) ≤ num / den ∧ (num / den : ℚ) < 2 ^ (f + 53) := by
  have hden : (0 : ℚ) < den := Nat.cast_pos.2 hd
  have hnum_le : (2 : ℚ) ^ (num.log2 : Int) ≤ num := by
    exact_mod_cast Nat.log2_self_le hn.ne'
  have hnum_lt : (num : ℚ) < 2 ^ (num.log2 + 1 : Int) := by
    exact_mod_cast Nat.lt_log2_self (n := num)
  have hden_le : (2 : ℚ) ^ (den.log2 : Int) ≤ den := by
    exact_mod_cast Nat.log2_self_le hd.ne'
  have hden_lt : (den : ℚ) < 2 ^ (den.log2 + 1 : Int) := by
    exact_mod_cast Nat.lt_log2_self (n := den)
  obtain ⟨e, he⟩ : ∃ e : Int, e = (num.log2 : Int) - den.log2 - 53 := ⟨_, rfl⟩
  have hlow : (2 : ℚ) ^ (e + 52) ≤ num / den := by
    rw [le_div_iff₀ hden]
    calc (2 : ℚ) ^ (e + 52) * den ≤ 2 ^ (e + 52) * 2 ^ (den.log2 + 1 : Int) := by gcongr
      _ = 2 ^ (num.log2 : Int) := by
        rw [← zpow_add₀ two_ne_zero]
        congr 1
        omega
      _ ≤ num := hnum_le
  have hhigh : (num / den : ℚ) < 2 ^ (e + 54) := by
    rw [div_lt_iff₀ hden]
    calc (num : ℚ) < 2 ^ (num.log2 + 1 : Int) := hnum_lt
      _ = 2 ^ (e + 54) * 2 ^ (den.log2 : Int) := by
        rw [← zpow_add₀ two_ne_zero]
        congr 1
        omega
      _ ≤ 2 ^ (e + 54) * den := by gcongr
  -- One comparison tells in which half of that range the quotient is.
  have hhalf : (unscale num den (e + 53)).2 ≤ (unscale num den (e + 53)).1 ↔
      (2 : ℚ) ^ (e + 53) ≤ num / den := by
    have hpos : (0 : ℚ) < (unscale num den (e + 53)).2 := Nat.cast_pos.2 (unscale_pos hd num _)
    rw [← Nat.cast_le (α := ℚ), ← one_le_div₀ hpos, unscale_value, one_le_div₀ (by positivity)]
  by_cases h : (2 : ℚ) ^ (e + 53) ≤ num / den
  · refine ⟨e + 1, ?_, ?_, ?_⟩
    · simp only [fittingExponent, ← he, if_pos (hhalf.2 h)]
    · rwa [show e + 1 + 52 = e + 53 by omega]
    · rwa [show e + 1 + 53 = e + 54 by omega]
  · refine ⟨e, ?_, hlow, not_le.1 h⟩
    simp only [fittingExponent, ← he, if_neg (mt hhalf.1 h)]

/-- The exponent that fits `m * 2 ^ e` is `e` if `m` has 53 bits, or if `e` is the smallest. -/
theorem fittingExponent_eq {num den m : Nat} {e : Int} (hd : 0 < den) (hm : 0 < m)
    (hlt : m < 2 * normalStart) (hleading : normalStart ≤ m ∨ e = minExponent)
    (he : minExponent ≤ e) (hv : (num / den : ℚ) = m * 2 ^ e) : fittingExponent num den = e := by
  have hn : 0 < num := by
    rw [Nat.pos_iff_ne_zero]
    rintro rfl
    have : (0 : ℚ) < m * 2 ^ e := by positivity
    simp [← hv] at this
  obtain ⟨f, hfit, hlow, hhigh⟩ := exists_binade hn hd
  rw [hv] at hlow hhigh
  have hf : f ≤ e := by
    have hm' : (m : ℚ) < 2 ^ (53 : Int) := by exact_mod_cast hlt
    have : (2 : ℚ) ^ (f + 52) < 2 ^ (e + 53) :=
      calc (2 : ℚ) ^ (f + 52) ≤ m * 2 ^ e := hlow
        _ < 2 ^ (53 : Int) * 2 ^ e := by gcongr
        _ = 2 ^ (e + 53) := by rw [← zpow_add₀ two_ne_zero, add_comm]
    have := (zpow_lt_zpow_iff_right₀ (one_lt_two (α := ℚ))).1 this
    omega
  rw [hfit]
  obtain hm52 | rfl := hleading
  · have hm' : (2 : ℚ) ^ (52 : Int) ≤ m := by exact_mod_cast hm52
    have : (2 : ℚ) ^ (e + 52) < 2 ^ (f + 53) :=
      calc (2 : ℚ) ^ (e + 52) = 2 ^ (52 : Int) * 2 ^ e := by
            rw [← zpow_add₀ two_ne_zero, add_comm]
        _ ≤ m * 2 ^ e := by gcongr
        _ < 2 ^ (f + 53) := hhigh
    have := (zpow_lt_zpow_iff_right₀ (one_lt_two (α := ℚ))).1 this
    omega
  · exact max_eq_left hf

theorem roundDiv_mul {den : Nat} (hd : 0 < den) (m : Nat) : roundDiv (m * den) den = m := by
  simp [roundDiv, Nat.mul_div_cancel _ hd, Nat.mul_mod_left, hd.ne]

/-- What needs no rounding stays as it is. -/
theorem nearest_of_value {num den k : Nat} (hd : 0 < den) (hk : k < infinity)
    (hv : (num / den : ℚ) = value k) : nearest num den = k := by
  have hden : (den : ℚ) ≠ 0 := Nat.cast_ne_zero.2 hd.ne'
  obtain rfl | hpos := Nat.eq_zero_or_pos k
  · have hnum : num = 0 := by simpa [value, significand, normalStart, hden] using hv
    simp [nearest, hnum]
  · have hm := significand_pos hpos
    have hfit : fittingExponent num den = exponent k :=
      fittingExponent_eq hd hm (significand_lt k) (le_significand_or k) (le_exponent k) hv
    have hnum : num ≠ 0 := by
      rintro rfl
      have : (0 : ℚ) < value k := by unfold value; positivity
      simp [← hv] at this
    have hq := unscale_pos hd num (exponent k)
    have hexact : (unscale num den (exponent k)).1 =
        significand k * (unscale num den (exponent k)).2 := by
      have := unscale_value num den (exponent k)
      rw [hv, value, mul_div_cancel_right₀ _ (by positivity), div_eq_iff (by positivity)] at this
      exact_mod_cast this
    simp only [nearest, if_neg hnum, hfit]
    rw [hexact, roundDiv_mul hq, ordinal_eq]
    exact Nat.min_eq_right hk.le

theorem integerPart_value {k : Nat} (h : isIntegral k = true) : (integerPart k : ℚ) = value k := by
  have hdvd : (ratio k).2 ∣ (ratio k).1 := Nat.dvd_of_mod_eq_zero (by simpa [isIntegral] using h)
  have hpos : ((ratio k).2 : ℚ) ≠ 0 := Nat.cast_ne_zero.2 (scaled_pos _ _).ne'
  rw [← ratio_value, integerPart, Nat.cast_div hdvd hpos]

theorem nearest_integerPart {k : Nat} (hk : k < infinity) (h : isIntegral k = true) :
    nearest (integerPart k) 1 = k :=
  nearest_of_value Nat.one_pos hk (by rw [Nat.cast_one, div_one, integerPart_value h])

theorem nearest_tenths {k : Nat} (hk : k < infinity) (h : isIntegral k = true) :
    nearest (integerPart k * 10) 10 = k := by
  refine nearest_of_value (by decide) hk ?_
  rw [← integerPart_value h, Nat.cast_mul, mul_div_cancel_right₀]
  norm_num

end Binary64

/-! ## Decimals -/

namespace Decimal

open Binary64 (infinity pow_toNat nearest_of_value)

theorem ratio_pos (d : Decimal) : 0 < d.ratio.2 := by
  unfold ratio
  split
  · exact Nat.one_pos
  · exact Nat.pow_pos (by decide)

theorem ratio_value (d : Decimal) :
    (d.ratio.1 : ℚ) / d.ratio.2 = d.digits * 10 ^ d.exponent := by
  unfold ratio
  split
  · rename_i he
    simp [pow_toNat 10 he]
  · rename_i he
    simp [pow_toNat 10 (e := -d.exponent) (by omega)]

theorem exact_value (k : Nat) :
    ((exact k).digits : ℚ) * 10 ^ (exact k).exponent = Binary64.value k := by
  unfold Binary64.value
  by_cases he : 0 ≤ Binary64.exponent k
  · simp [exact, he, pow_toNat 2 he]
  · have hten : (10 : ℚ) ^ Binary64.exponent k =
        5 ^ Binary64.exponent k * 2 ^ Binary64.exponent k := by
      rw [← mul_zpow]
      norm_num
    have hfive : (5 : ℚ) ^ Binary64.exponent k ≠ 0 := by positivity
    -- The fives of the digits cancel the fives of the exponent.
    simp [exact, he, pow_toNat 5 (e := -Binary64.exponent k) (by omega), hten, mul_assoc,
      inv_mul_cancel_left₀ hfive]

/-- All the digits of a number read back. -/
theorem toOrdinal_exact {k : Nat} (hk : k < infinity) : (exact k).toOrdinal = k :=
  nearest_of_value (ratio_pos _) hk (by rw [ratio_value, exact_value])

theorem readsBack_of_onGrid {tie : Tie} {k num den : Nat} {p : Int} {d : Decimal}
    (h : onGrid tie k num den p = some d) : readsBack k d = true := by
  unfold onGrid at h
  generalize (if 0 ≤ p then (num, den * Nat.pow 10 p.toNat)
    else (num * Nat.pow 10 (-p).toNat, den)) = q at h
  dsimp only at h
  split at h
  · cases h
  · rename_i hlow _
    cases h
    exact hlow
  · rename_i _ hhigh
    cases h
    exact hhigh
  · rename_i hlow hhigh
    split at h
    · cases h
      exact hlow
    · split at h
      · cases h
        exact hhigh
      · split at h <;> cases h
        · exact hhigh
        · exact hlow

theorem readsBack_of_search {tie : Tie} {k num den n : Nat} {p : Int} {d : Decimal}
    (h : search tie k num den n p = some d) : readsBack k d = true := by
  induction n generalizing p with
  | zero => cases h
  | succ n ih =>
    rw [search] at h
    split at h
    · rename_i hgrid
      cases h
      exact readsBack_of_onGrid hgrid
    · exact ih h

/-- The fewest digits read back, whether a grid has them or all digits are needed. -/
theorem toOrdinal_shortest (tie : Tie) {k : Nat} (hk : k < infinity) :
    (shortest tie k).toOrdinal = k := by
  unfold shortest
  split
  · rename_i hzero
    rw [hzero]
    rfl
  · simp only
    cases hsearch : search tie k (Binary64.ratio k).1 (Binary64.ratio k).2 20 (startingGrid k) with
    | none => exact toOrdinal_exact hk
    | some d => exact beq_iff_eq.1 (readsBack_of_search hsearch)

end Decimal
end Lox
