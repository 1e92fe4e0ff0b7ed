import YamlCodec.Proofs.Double.Nearest

/-!
# Which numbers are magnitudes

A magnitude is a significand of at most 53 bits at a place that is not below the least one, and every
such product below `2 ^ 1024` is a magnitude: a significand with room is doubled as its place goes down,
until it has 53 bits or stands at the least place.
-/

set_option autoImplicit false

namespace YamlCodec.Double

/-- The code after the last magnitude is that of the next power of two. -/
theorem ratio_magnitudes : (ratio magnitudes).value = 2 ^ 1024 := by
  have hcode : magnitudes = ((972 : ℤ) + 1074).toNat * binade + 2 ^ 52 := by decide
  rw [hcode, ratio_code (by norm_num) le_rfl (by norm_num), Nat.cast_pow, Nat.cast_ofNat, ← zpow_natCast,
    ← zpow_natCast, ← zpow_add₀ (by norm_num)]
  rfl

theorem lt_magnitudes_iff {code : ℕ} : code < magnitudes ↔ (ratio code).value < 2 ^ 1024 := by
  rw [← ratio_magnitudes]
  exact ratio_strictMono.lt_iff_lt.symm

/-- No magnitude but zero is below the least one. -/
theorem least_le_ratio {code : ℕ} (h : code ≠ 0) : 2 ^ (-1074 : ℤ) ≤ (ratio code).value := by
  have hone : (ratio 1).value = 2 ^ (-1074 : ℤ) := by simp [ratio_value, significand, scale, binade]
  rw [← hone]
  exact ratio_strictMono.monotone (Nat.one_le_iff_ne_zero.mpr h)

theorem exists_significand (code : ℕ) :
    ∃ (M : ℕ) (s : ℤ), M < 2 ^ 53 ∧ -1074 ≤ s ∧ (ratio code).value = M * 2 ^ s := by
  obtain ⟨s, M, hs, hl, hu, rfl⟩ := exists_place code
  exact ⟨M, s, hu, hs, ratio_place hs hl hu.le⟩

/-- A number of at most 53 bits at a place, with its first bit as far to the front as it goes. -/
theorem exists_normal {M : ℕ} (hM : M < 2 ^ 53) (k : ℕ) :
    ∃ (s : ℤ) (N : ℕ), -1074 ≤ s ∧ (2 ^ 52 ≤ N ∨ s = -1074) ∧ N < 2 ^ 53 ∧
      (N : ℚ) * 2 ^ s = M * 2 ^ ((k : ℤ) - 1074) := by
  induction k generalizing M with
  | zero => exact ⟨-1074, M, le_rfl, .inr rfl, hM, by norm_num⟩
  | succ k ih =>
    rcases Nat.lt_or_ge M (2 ^ 52) with hroom | hfull
    · obtain ⟨s, N, hs, hl, hu, hvalue⟩ := ih (M := 2 * M) (by omega)
      refine ⟨s, N, hs, hl, hu, ?_⟩
      rw [hvalue, show ((k + 1 : ℕ) : ℤ) - 1074 = k - 1074 + 1 by push_cast; ring,
        zpow_add_one₀ (by norm_num)]
      push_cast
      ring
    · exact ⟨_, M, by omega, .inl hfull, hM, rfl⟩

theorem exists_code {M : ℕ} {s : ℤ} (hM : M < 2 ^ 53) (hs : -1074 ≤ s)
    (hu : (M : ℚ) * 2 ^ s < 2 ^ 1024) : ∃ code : Fin magnitudes, (ratio code.val).value = M * 2 ^ s := by
  obtain ⟨place, N, hplace, hl, hN, hvalue⟩ := exists_normal hM (s + 1074).toNat
  rw [show (((s + 1074).toNat : ℕ) : ℤ) - 1074 = s by omega] at hvalue
  have hcode := ratio_place hplace hl hN.le
  rw [hvalue] at hcode
  exact ⟨⟨_, lt_magnitudes_iff.mpr (hcode ▸ hu)⟩, hcode⟩

theorem natCast_lt_limit_iff {n : ℕ} : (n : ℚ) < 2 ^ 1024 ↔ n < 2 ^ 1024 := by
  rw [← Nat.cast_ofNat, ← Nat.cast_pow, Nat.cast_lt]

/-- A natural number below `2 ^ 1024` with at most 53 bits before its last zeros is a magnitude. -/
theorem ofValue_short (negative : Bool) {M j : ℕ} (hM : M < 2 ^ 53) (hu : M * 2 ^ j < 2 ^ 1024) :
    ∃ code, ofValue negative (M * 2 ^ j : ℕ) = .finite negative code ∧
      (ratio code.val).value = (M * 2 ^ j : ℕ) := by
  rcases Nat.eq_zero_or_pos M with rfl | hpos
  · rw [Nat.zero_mul]
    exact ofValue_exact negative (by norm_num)
  · have hcast : ((M * 2 ^ j : ℕ) : ℚ) = M * 2 ^ (j : ℤ) := by
      push_cast
      rw [zpow_natCast]
    obtain ⟨code, hcode⟩ := exists_code (s := j) hM (by omega) (hcast ▸ natCast_lt_limit_iff.mpr hu)
    rw [hcast]
    refine ⟨code, ?_, hcode⟩
    rw [← hcode]
    apply ofValue_ratio
    intro hzero
    have hne : (M : ℚ) * 2 ^ (j : ℤ) ≠ 0 :=
      mul_ne_zero (Nat.cast_ne_zero.mpr hpos.ne') (zpow_ne_zero _ two_ne_zero)
    rw [← hcode, hzero] at hne
    exact hne ratio_zero

end YamlCodec.Double
