import YamlCodec.Proofs.Double.Value

/-!
# Rounding decimals

Magnitudes past the range become infinities and tiny ones zeros, so the decimals that are decided
before their power of ten is formed are decided rightly, and a decimal is rounded by the number it
denotes alone.
-/

set_option autoImplicit false

namespace YamlCodec.Double

theorem ofCode_past (negative : Bool) {code : ℕ} (h : magnitudes ≤ code) :
    ofCode negative code = .infinity negative := by
  rw [ofCode, dif_neg (by omega)]

/-- Scaled to its own place, a number has 53 bits before the point. -/
theorem significand_bounds {q : ℚ} (hq : 0 < q) :
    2 ^ 52 ≤ q * 2 ^ (-(Int.log 2 q - 52)) ∧ q * 2 ^ (-(Int.log 2 q - 52)) < 2 ^ 53 := by
  have hl := Int.zpow_log_le_self (b := 2) (by decide) hq
  have hu := Int.lt_zpow_succ_log_self (b := 2) (by decide) q
  push_cast at hl hu
  have hp : (0 : ℚ) < 2 ^ (-(Int.log 2 q - 52)) := by positivity
  constructor
  · calc (2 : ℚ) ^ 52 = 2 ^ (Int.log 2 q) * 2 ^ (-(Int.log 2 q - 52)) := by
          rw [← zpow_add₀ (by norm_num), ← zpow_natCast]; congr 1; push_cast; ring
      _ ≤ q * 2 ^ (-(Int.log 2 q - 52)) := by gcongr
  · calc q * 2 ^ (-(Int.log 2 q - 52))
        < 2 ^ (Int.log 2 q + 1) * 2 ^ (-(Int.log 2 q - 52)) := by gcongr
      _ = 2 ^ 53 := by
          rw [← zpow_add₀ (by norm_num), ← zpow_natCast]; congr 1; push_cast; ring

theorem ofValue_overflow (negative : Bool) {q : ℚ} (h : 2 ^ 1024 ≤ q) :
    ofValue negative q = .infinity negative := by
  have hq : 0 < q := lt_of_lt_of_le (by positivity) h
  have hlog : 1024 ≤ Int.log 2 q :=
    (Int.zpow_le_iff_le_log (b := 2) (by decide) hq).mp (by exact_mod_cast h)
  obtain ⟨hl, hu⟩ := significand_bounds hq
  obtain ⟨hm, _⟩ := roundEven_bounds (m := 2 ^ 52) (n := 2 ^ 53) (by exact_mod_cast hl)
    (by exact_mod_cast hu)
  rw [ofValue, if_neg hq.ne']
  apply ofCode_past
  rw [max_eq_left (by omega)]
  have hstep : 2046 ≤ (Int.log 2 q - 52 + 1074).toNat := by omega
  have hmul := Nat.mul_le_mul_right binade hstep
  simp only [magnitudes, binade] at hmul ⊢
  omega

theorem ofValue_underflow (negative : Bool) {q : ℚ} (hq : 0 < q) (h : q < 2 ^ (-1075 : ℤ)) :
    ofValue negative q = zero negative := by
  have hlog : Int.log 2 q < -1075 :=
    (Int.lt_zpow_iff_log_lt (b := 2) (by decide) hq).mp (by exact_mod_cast h)
  rw [ofValue, if_neg hq.ne']
  simp only [max_eq_right (show Int.log 2 q - 52 ≤ -1074 by omega)]
  have hr : roundEven (q * 2 ^ (-(-1074 : ℤ))) = 0 := by
    apply roundEven_eq_zero
    calc q * 2 ^ (-(-1074 : ℤ)) < 2 ^ (-1075 : ℤ) * 2 ^ (-(-1074 : ℤ)) := by gcongr
      _ = 1 / 2 := by rw [← zpow_add₀ (by norm_num)]; norm_num
  rw [hr]
  rfl

/-- A decimal is rounded by the number that it denotes. -/
theorem ofDecimal_eq (negative : Bool) (digits : ℕ) (exponent : ℤ) :
    ofDecimal negative digits exponent = ofValue negative (digits * 10 ^ exponent) := by
  rw [ofDecimal]
  by_cases hd : digits = 0
  · simp [hd, ofValue]
  rw [if_neg hd]
  have hl := Ratio.log2_le digits hd
  have hu := Ratio.lt_log2 digits
  have hround : ofRatio negative (Ratio.scaled ⟨digits, 1⟩ 10 exponent) =
      ofValue negative (digits * 10 ^ exponent) := by
    rw [ofRatio_eq negative (Ratio.scaled_den_pos Nat.one_pos (by decide) _),
      Ratio.scaled_value _ (by decide)]
    simp [Ratio.value]
  cases exponent with
  | ofNat k =>
    simp only [pastRange?]
    by_cases h : 1024 ≤ digits.log2 + 3 * k
    · rw [if_pos h]
      refine (ofValue_overflow negative ?_).symm
      calc (2 : ℚ) ^ 1024 ≤ 2 ^ (digits.log2 + 3 * k) := pow_le_pow_right₀ (by norm_num) h
        _ = 2 ^ (digits.log2 : ℤ) * 8 ^ k := by
          rw [pow_add, pow_mul, zpow_natCast]; norm_num
        _ ≤ digits * 10 ^ k := by gcongr; norm_num
        _ = digits * 10 ^ (Int.ofNat k) := by rw [Int.ofNat_eq_natCast, zpow_natCast]
    · rw [if_neg h]
      exact hround
  | negSucc k =>
    simp only [pastRange?]
    by_cases h : digits.log2 + 1077 < 3 * (k + 1)
    · rw [if_pos h]
      refine (ofValue_underflow negative (by positivity) ?_).symm
      calc (digits : ℚ) * 10 ^ (Int.negSucc k)
          ≤ digits * 8 ^ (Int.negSucc k) := by
            rw [zpow_negSucc, zpow_negSucc]
            gcongr
            norm_num
        _ = digits * 2 ^ (-(3 * ((k : ℤ) + 1))) := by
            rw [show (8 : ℚ) = 2 ^ (3 : ℤ) by norm_num, ← zpow_mul, Int.negSucc_eq]
            congr 2
        _ < 2 ^ ((digits.log2 : ℤ) + 1) * 2 ^ (-(3 * ((k : ℤ) + 1))) := by gcongr
        _ = 2 ^ ((digits.log2 : ℤ) + 1 - 3 * ((k : ℤ) + 1)) := by
            rw [← zpow_add₀ (by norm_num), sub_eq_add_neg]
        _ ≤ 2 ^ (-1075 : ℤ) := zpow_le_zpow_right₀ (by norm_num) (by omega)
    · rw [if_neg h]
      exact hround

end YamlCodec.Double
