import YamlCodec.Double.Shortest
import YamlCodec.Proofs.Double.Decimal

/-!
# Decimals that read back

A magnitude is the number nearest to itself, so the exact decimal of a magnitude reads back, and with
it the shortest one that was searched for.
-/

set_option autoImplicit false

namespace YamlCodec.Double

theorem ratio_value (code : ℕ) :
    (ratio code).value = significand code * 2 ^ scale code := by
  rw [ratio, Ratio.scaled_value _ (by decide)]
  simp [Ratio.value]

theorem ratio_zero : (ratio 0).value = 0 := by
  simp [ratio_value, significand, binade]

theorem significand_pos {code : ℕ} (h : code ≠ 0) : 0 < significand code := by
  rw [significand]
  split <;> simp only [binade] at * <;> omega

/-- The step of the grid that a magnitude is rounded to is that of its own binade. -/
theorem step_eq {code : ℕ} (h : code ≠ 0) :
    max (Int.log 2 (ratio code).value - 52) (-1074) = scale code := by
  have hs : (0 : ℚ) < significand code := by exact_mod_cast significand_pos h
  have hv : 0 < (ratio code).value := by
    rw [ratio_value]
    positivity
  have hlt : significand code < 2 ^ 53 := by
    rw [significand]
    split <;> simp only [binade] at * <;> omega
  have hup : Int.log 2 (ratio code).value < 53 + scale code := by
    apply (Int.lt_zpow_iff_log_lt (b := 2) (by decide) hv).mp
    rw [ratio_value]
    push_cast
    rw [zpow_add₀ (by norm_num)]
    gcongr
    exact_mod_cast hlt
  by_cases hc : code < binade
  · have hscale : scale code = -1074 := if_pos hc
    have hlt : significand code < 2 ^ 52 := by
      rw [significand, if_pos hc]
      simpa [binade] using hc
    have hup : Int.log 2 (ratio code).value < 52 + scale code := by
      apply (Int.lt_zpow_iff_log_lt (b := 2) (by decide) hv).mp
      rw [ratio_value]
      push_cast
      rw [zpow_add₀ (by norm_num)]
      gcongr
      exact_mod_cast hlt
    omega
  · have hge : 2 ^ 52 ≤ significand code := by
      rw [significand, if_neg hc]
      simp [binade]
    have hlow : 52 + scale code ≤ Int.log 2 (ratio code).value := by
      apply (Int.zpow_le_iff_le_log (b := 2) (by decide) hv).mp
      rw [ratio_value]
      push_cast
      rw [zpow_add₀ (by norm_num)]
      gcongr
      exact_mod_cast hge
    have hscale : -1074 ≤ scale code := by
      rw [scale, if_neg hc]
      have : 1 ≤ code / binade := (Nat.le_div_iff_mul_le (by decide)).mpr (by omega)
      omega
    omega

/-- A magnitude is the number nearest to itself. -/
theorem ofValue_ratio (negative : Bool) (code : Fin magnitudes) (h : code.val ≠ 0) :
    ofValue negative (ratio code.val).value = .finite negative code := by
  have hs := significand_pos h
  have hv : (ratio code.val).value ≠ 0 := by
    rw [ratio_value]
    positivity
  rw [ofValue, if_neg hv]
  simp only [step_eq h]
  have hround : roundEven ((ratio code.val).value * 2 ^ (-scale code.val)) =
      significand code.val := by
    rw [ratio_value, mul_assoc, ← zpow_add₀ (by norm_num), add_neg_cancel, zpow_zero, mul_one,
      roundEven_natCast]
  have hcode : (scale code.val + 1074).toNat * binade + significand code.val = code.val := by
    rw [scale, significand]
    split
    · simp
    · rename_i hc
      have h1 : 1 ≤ code.val / binade := (Nat.le_div_iff_mul_le (by decide)).mpr (by omega)
      have h2 := Nat.div_add_mod code.val binade
      have h3 : (((code.val / binade : ℕ) : ℤ) - 1075 + 1074).toNat = code.val / binade - 1 := by
        omega
      have h4 : binade ≤ binade * (code.val / binade) := Nat.le_mul_of_pos_right _ h1
      rw [h3, Nat.sub_mul, Nat.mul_comm (code.val / binade)]
      omega
  rw [hround, hcode, ofCode, dif_pos code.isLt]

theorem ofCode_negative {code : ℕ} {c : Fin magnitudes} (negative : Bool)
    (h : ofCode false code = .finite false c) : ofCode negative code = .finite negative c := by
  by_cases hlt : code < magnitudes
  · rw [ofCode, dif_pos hlt] at h ⊢
    simpa using h
  · simp [ofCode, hlt] at h

/-- The sign takes no part in rounding. -/
theorem ofValue_negative {q : ℚ} {c : Fin magnitudes} (negative : Bool)
    (h : ofValue false q = .finite false c) : ofValue negative q = .finite negative c := by
  by_cases hq : q = 0
  · rw [ofValue, if_pos hq] at h ⊢
    simpa [zero] using h
  · rw [ofValue, if_neg hq] at h ⊢
    exact ofCode_negative negative h

theorem readsBack_iff (d : Decimal) (code : Fin magnitudes) :
    d.readsBack code = true ↔ ofValue false (d.digits * 10 ^ d.exponent) = .finite false code := by
  rw [Decimal.readsBack, beq_iff_eq, Decimal.toDouble, ofDecimal_eq]

theorem exactDecimal_value (code : ℕ) :
    ((exactDecimal code).digits : ℚ) * 10 ^ (exactDecimal code).exponent = (ratio code).value := by
  rw [ratio_value, exactDecimal]
  cases scale code with
  | ofNat k => simp [Nat.pow_eq]
  | negSucc k =>
    simp only [Nat.pow_eq, zpow_negSucc]
    push_cast
    rw [show (10 : ℚ) = 2 * 5 by norm_num, mul_pow]
    field_simp

theorem firstReadingBack_readsBack {code : Fin magnitudes} {place : ℤ} {tries : ℕ} {d : Decimal}
    (h : firstReadingBack code place tries = some d) : d.readsBack code = true := by
  induction tries generalizing place with
  | zero => simp [firstReadingBack] at h
  | succ tries ih =>
    rw [firstReadingBack] at h
    split at h
    · rename_i d' hfind
      obtain rfl : d' = d := by simpa using h
      simpa using List.find?_some hfind
    · exact ih h

theorem shortest_readsBack {code : Fin magnitudes} (h : code.val ≠ 0) :
    (shortest code).readsBack code = true := by
  rw [shortest]
  cases hf : firstReadingBack code (decimalPlace code.val) 17 with
  | some d => exact firstReadingBack_readsBack hf
  | none =>
    rw [Option.getD_none, readsBack_iff, exactDecimal_value]
    exact ofValue_ratio false code h

/-- Any decimal that denotes the shortest one's number reads back with either sign. -/
theorem ofDecimal_shortest (negative : Bool) {code : Fin magnitudes} (h : code.val ≠ 0)
    {digits : ℕ} {exponent : ℤ}
    (hd : (digits : ℚ) * 10 ^ exponent = (shortest code).digits * 10 ^ (shortest code).exponent) :
    ofDecimal negative digits exponent = .finite negative code := by
  rw [ofDecimal_eq, hd]
  exact ofValue_negative negative ((readsBack_iff _ _).mp (shortest_readsBack h))

end YamlCodec.Double
