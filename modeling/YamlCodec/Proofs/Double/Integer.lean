import YamlCodec.Proofs.Double.ReadBack

/-!
# Rounding natural numbers

From the least normal magnitude on, a number is rounded to 53 bits at its own place. So a code is read
off the rounded significand and the place, what is added below half a unit of the last bit is lost, and
a natural number of at most 53 bits is not changed.
-/

set_option autoImplicit false

namespace YamlCodec.Double

theorem roundEven_add {M : ℕ} {δ : ℚ} (hl : 0 ≤ δ) (hu : δ < 1 / 2) : roundEven (M + δ) = M := by
  have hfloor : ⌊(M : ℚ) + δ⌋₊ = M := by
    rw [Nat.floor_eq_iff (by positivity)]
    constructor <;> linarith
  have hhalf : compare (2 * ((M : ℚ) + δ - ⌊(M : ℚ) + δ⌋₊)) 1 = .lt := by
    rw [compare_lt_iff_lt, hfloor]
    linarith
  rw [roundEven, hhalf]
  exact hfloor

theorem ofCode_eq_infinity_iff {negative : Bool} {code : ℕ} :
    ofCode negative code = .infinity negative ↔ magnitudes ≤ code := by
  constructor
  · intro h
    by_contra hlt
    rw [ofCode, dif_pos (Nat.lt_of_not_le hlt)] at h
    cases h
  · exact ofCode_past negative

/-- Different codes are the same number only past the range. -/
theorem ofCode_eq_iff {negative : Bool} {code code' : ℕ} (hless : code < code') :
    ofCode negative code = ofCode negative code' ↔ magnitudes ≤ code := by
  constructor
  · intro h
    by_contra hlt
    rw [ofCode, dif_pos (Nat.lt_of_not_le hlt), ofCode] at h
    split at h
    · simp only [finite.injEq, Fin.mk.injEq, true_and] at h
      omega
    · cases h
  · intro h
    rw [ofCode_past negative h, ofCode_past negative (by omega)]

/-- A normal number is rounded at its own place. -/
theorem ofValue_normal (negative : Bool) {q : ℚ} {s : ℤ} (hs : -1074 ≤ s) (hl : 2 ^ (s + 52) ≤ q)
    (hu : q < 2 ^ (s + 53)) :
    ofValue negative q =
      ofCode negative ((s + 1074).toNat * binade + roundEven (q * 2 ^ (-s))) := by
  have hq : 0 < q := lt_of_lt_of_le (by positivity) hl
  have hlow : s + 52 ≤ Int.log 2 q :=
    (Int.zpow_le_iff_le_log (b := 2) (by decide) hq).mp (by exact_mod_cast hl)
  have hup : Int.log 2 q < s + 53 :=
    (Int.lt_zpow_iff_log_lt (b := 2) (by decide) hq).mp (by exact_mod_cast hu)
  rw [ofValue, if_neg hq.ne']
  simp only [show max (Int.log 2 q - 52) (-1074) = s by omega]

theorem binade_eq : binade = 2 ^ 52 := by decide

/-- A significand that has run over is the least one of the next place. -/
theorem code_carry {s : ℤ} (hs : -1074 ≤ s) :
    (s + 1 + 1074).toNat * binade + 2 ^ 52 = (s + 1074).toNat * binade + 2 ^ 53 := by
  rw [show (s + 1 + 1074).toNat = (s + 1074).toNat + 1 by omega, Nat.add_mul, binade_eq]
  ring

theorem carry_value (s : ℤ) : ((2 ^ 53 : ℕ) : ℚ) * 2 ^ s = ((2 ^ 52 : ℕ) : ℚ) * 2 ^ (s + 1) := by
  rw [zpow_add₀ (by norm_num)]
  push_cast
  ring

/-- What is below half a unit of the last bit is lost. -/
theorem ofValue_add (negative : Bool) {s : ℤ} {M : ℕ} {ε : ℚ} (hs : -1074 ≤ s) (hl : 2 ^ 52 ≤ M)
    (hu : M ≤ 2 ^ 53) (h0 : 0 ≤ ε) (hε : 2 * ε < 2 ^ s) :
    ofValue negative (M * 2 ^ s + ε) = ofCode negative ((s + 1074).toNat * binade + M) := by
  have hshort {s : ℤ} {M : ℕ} (hs : -1074 ≤ s) (hl : 2 ^ 52 ≤ M) (hu : M < 2 ^ 53)
      (hε : 2 * ε < 2 ^ s) :
      ofValue negative (M * 2 ^ s + ε) = ofCode negative ((s + 1074).toNat * binade + M) := by
    have hl : (2 : ℚ) ^ 52 ≤ M := by exact_mod_cast hl
    have hu : (M : ℚ) + 1 ≤ 2 ^ 53 := by exact_mod_cast hu
    have hpos : (0 : ℚ) < 2 ^ s := by positivity
    have hcancel : (2 : ℚ) ^ s * 2 ^ (-s) = 1 := by
      rw [← zpow_add₀ (by norm_num), add_neg_cancel, zpow_zero]
    have hlow : (2 : ℚ) ^ (s + 52) ≤ M * 2 ^ s + ε := by
      calc (2 : ℚ) ^ (s + 52) = 2 ^ 52 * 2 ^ s := by
            rw [zpow_add₀ (by norm_num), mul_comm]
            norm_num
        _ ≤ M * 2 ^ s := by gcongr
        _ ≤ M * 2 ^ s + ε := by linarith
    have hup : M * 2 ^ s + ε < (2 : ℚ) ^ (s + 53) := by
      calc M * 2 ^ s + ε < (M + 1) * 2 ^ s := by linarith
        _ ≤ 2 ^ 53 * 2 ^ s := by gcongr
        _ = 2 ^ (s + 53) := by
            rw [zpow_add₀ (by norm_num), mul_comm]
            norm_num
    have hq : (M * 2 ^ s + ε) * 2 ^ (-s) = M + ε * 2 ^ (-s) := by
      rw [add_mul, mul_assoc, hcancel, mul_one]
    have hδ : ε * 2 ^ (-s) < 1 / 2 := by
      calc ε * 2 ^ (-s) < 2 ^ s / 2 * 2 ^ (-s) := by
            gcongr
            linarith
        _ = 1 / 2 := by rw [div_mul_eq_mul_div, hcancel]
    rw [ofValue_normal negative hs hlow hup, hq, roundEven_add (by positivity) hδ]
  rcases Nat.lt_or_ge M (2 ^ 53) with hlt | hge
  · exact hshort hs hl hlt hε
  · obtain rfl : M = 2 ^ 53 := Nat.le_antisymm hu hge
    rw [carry_value, hshort (by omega) le_rfl (by norm_num), code_carry hs]
    calc 2 * ε < 2 ^ s := hε
      _ ≤ 2 ^ (s + 1) := zpow_le_zpow_right₀ (by norm_num) (by omega)

/-- The magnitude of a code that is made of a place and a significand. -/
theorem ratio_code {s : ℤ} {M : ℕ} (hs : -1074 ≤ s) (hl : 2 ^ 52 ≤ M) (hu : M ≤ 2 ^ 53) :
    (ratio ((s + 1074).toNat * binade + M)).value = M * 2 ^ s := by
  have hshort {s : ℤ} {M : ℕ} (hs : -1074 ≤ s) (hl : 2 ^ 52 ≤ M) (hu : M < 2 ^ 53) :
      (ratio ((s + 1074).toNat * binade + M)).value = M * 2 ^ s := by
    have hcode : (s + 1074).toNat * binade + M =
        binade * ((s + 1074).toNat + 1) + (M - 2 ^ 52) := by
      rw [Nat.mul_add, Nat.mul_comm, binade_eq]
      omega
    have hrest : M - 2 ^ 52 < binade := by
      rw [binade_eq]
      omega
    have hdiv : ((s + 1074).toNat * binade + M) / binade = (s + 1074).toNat + 1 := by
      rw [hcode, Nat.mul_add_div (by decide), Nat.div_eq_of_lt hrest, Nat.add_zero]
    have hmod : ((s + 1074).toNat * binade + M) % binade = M - 2 ^ 52 := by
      rw [hcode, Nat.mul_add_mod, Nat.mod_eq_of_lt hrest]
    have hge : ¬ (s + 1074).toNat * binade + M < binade := by
      rw [hcode, Nat.mul_add]
      omega
    have hsignificand : binade + (M - 2 ^ 52) = M := by
      rw [binade_eq]
      omega
    have hscale : (((s + 1074).toNat + 1 : ℕ) : ℤ) - 1075 = s := by omega
    rw [ratio_value, significand, scale, if_neg hge, if_neg hge, hdiv, hmod, hsignificand, hscale]
  rcases Nat.lt_or_ge M (2 ^ 53) with hlt | hge
  · exact hshort hs hl hlt
  · obtain rfl : M = 2 ^ 53 := Nat.le_antisymm hu hge
    have hnext := hshort (show -1074 ≤ s + 1 by omega) le_rfl (show 2 ^ 52 < 2 ^ 53 by norm_num)
    rw [code_carry hs] at hnext
    rw [hnext, carry_value]

theorem ratio_den_pos (code : ℕ) : 0 < (ratio code).den :=
  Ratio.scaled_den_pos Nat.one_pos (by decide) _

/-- A rounded significand has 53 bits, or it is the power of two after them. -/
theorem significand_rounded {q : ℚ} {s : ℤ} (hl : 2 ^ (s + 52) ≤ q) (hu : q < 2 ^ (s + 53)) :
    2 ^ 52 ≤ roundEven (q * 2 ^ (-s)) ∧ roundEven (q * 2 ^ (-s)) ≤ 2 ^ 53 := by
  have hscale (k : ℤ) : (2 : ℚ) ^ (s + k) * 2 ^ (-s) = 2 ^ k := by
    rw [← zpow_add₀ (by norm_num)]
    congr 1
    ring
  apply roundEven_bounds
  · calc ((2 ^ 52 : ℕ) : ℚ) = 2 ^ (s + 52) * 2 ^ (-s) := by
          rw [hscale]
          norm_num
      _ ≤ q * 2 ^ (-s) := by gcongr
  · calc q * 2 ^ (-s) < 2 ^ (s + 53) * 2 ^ (-s) := by gcongr
      _ = ((2 ^ 53 : ℕ) : ℚ) := by
          rw [hscale]
          norm_num

theorem natural_place {n : ℕ} (hn : n ≠ 0) :
    (2 : ℚ) ^ ((n.log2 : ℤ) - 52 + 52) ≤ n ∧ (n : ℚ) < 2 ^ ((n.log2 : ℤ) - 52 + 53) := by
  constructor
  · rw [sub_add_cancel]
    exact Ratio.log2_le n hn
  · rw [show (n.log2 : ℤ) - 52 + 53 = n.log2 + 1 by ring]
    exact Ratio.lt_log2 n

/-- A natural number of at most 53 bits is a magnitude. -/
theorem ofValue_exact (negative : Bool) {n : ℕ} (h : n < 2 ^ 53) :
    ∃ code, ofValue negative n = .finite negative code ∧ (ratio code.val).value = n := by
  by_cases hn : n = 0
  · subst hn
    exact ⟨⟨0, by decide⟩, by simp [ofValue, zero], by simp [ratio_zero]⟩
  have hlog : n.log2 ≤ 52 := Nat.lt_succ_iff.mp ((Nat.log2_lt hn).mpr h)
  obtain ⟨hl, hu⟩ := natural_place hn
  set s : ℤ := (n.log2 : ℤ) - 52 with hs
  have hM : (n : ℚ) * 2 ^ (-s) = ((n * 2 ^ (52 - n.log2) : ℕ) : ℚ) := by
    push_cast
    rw [← zpow_natCast, show -s = ((52 - n.log2 : ℕ) : ℤ) by omega]
  have hround := significand_rounded hl hu
  have hvalue := ofValue_normal negative (by omega) hl hu
  rw [hM, roundEven_natCast] at hround hvalue
  have hlt : (s + 1074).toNat * binade + n * 2 ^ (52 - n.log2) < magnitudes := by
    have := Nat.mul_le_mul_right binade (show (s + 1074).toNat ≤ 1074 by omega)
    simp only [binade, magnitudes] at this ⊢
    omega
  refine ⟨⟨_, hlt⟩, ?_, ?_⟩
  · rw [hvalue, ofCode, dif_pos hlt]
  · rw [ratio_code (by omega) hround.1 hround.2, ← hM, mul_assoc, ← zpow_add₀ (by norm_num),
      neg_add_cancel, zpow_zero, mul_one]

/-- A natural number of more than 53 bits is rounded by its low bits. -/
theorem roundEven_shift (n : ℕ) {u : ℕ} (hu : 0 < u) :
    roundEven (n * 2 ^ (-(u : ℤ))) =
      if n % 2 ^ u < 2 ^ (u - 1) then n / 2 ^ u
      else if n % 2 ^ u = 2 ^ (u - 1) then n / 2 ^ u + n / 2 ^ u % 2
      else n / 2 ^ u + 1 := by
  have hden : 2 ^ u = 2 * 2 ^ (u - 1) := by
    rw [← pow_succ', Nat.sub_add_cancel hu]
  have hvalue : (n : ℚ) * 2 ^ (-(u : ℤ)) = (⟨n, 2 ^ u⟩ : Ratio).value := by
    rw [Ratio.value, zpow_neg, zpow_natCast, div_eq_mul_inv]
    push_cast
    rfl
  have hfloor : (⟨n, 2 ^ u⟩ : Ratio).floor = n / 2 ^ u := rfl
  rw [hvalue, ← Ratio.round_eq (Nat.two_pow_pos u), Ratio.round]
  rcases Nat.lt_trichotomy (n % 2 ^ u) (2 ^ (u - 1)) with hlt | heq | hgt
  · have hhalf : (⟨n, 2 ^ u⟩ : Ratio).half = .lt := compare_lt_iff_lt.mpr (by simp only; omega)
    simp only [hhalf, hfloor, if_pos hlt]
  · have hhalf : (⟨n, 2 ^ u⟩ : Ratio).half = .eq := compare_eq_iff_eq.mpr (by simp only; omega)
    simp only [hhalf, hfloor, heq, lt_irrefl, if_true, if_false]
    split
    · omega
    · omega
  · have hhalf : (⟨n, 2 ^ u⟩ : Ratio).half = .gt := compare_gt_iff_gt.mpr (by simp only; omega)
    simp only [hhalf, hfloor, if_neg hgt.ne', if_neg hgt.not_gt]

theorem ofInt_eq (i : ℤ) : ofInt i = ofValue (i < 0) i.natAbs := by
  rw [ofInt, ofRatio_eq _ Nat.one_pos]
  simp [Ratio.value]

/-- The double nearest to a natural number with a sign. -/
theorem ofInt_signed (negative : Bool) {n : ℕ} (hn : n ≠ 0) :
    ofInt (if negative then -(n : ℤ) else n) = ofValue negative n := by
  rw [ofInt_eq]
  cases negative with
  | false =>
    have hsign : ¬ (n : ℤ) < 0 := by omega
    simp [hsign]
  | true =>
    have hpos : 0 < n := Nat.pos_of_ne_zero hn
    simp [hpos]

/-- A number at two places above another is rounded to another double but past the range. -/
theorem ofValue_eq_iff (negative : Bool) {n m : ℕ} (hn : n ≠ 0) (hplace : n.log2 + 2 ≤ m.log2) :
    ofValue negative m = ofValue negative n ↔ ofValue negative n = .infinity negative := by
  have hm : m ≠ 0 := by
    rintro rfl
    rw [Nat.log2_zero] at hplace
    omega
  obtain ⟨hl, hu⟩ := natural_place hn
  obtain ⟨hlm, hum⟩ := natural_place hm
  obtain ⟨-, hround⟩ := significand_rounded hl hu
  obtain ⟨hround', -⟩ := significand_rounded hlm hum
  rw [ofValue_normal negative (by omega) hl hu, ofValue_normal negative (by omega) hlm hum]
  set M := roundEven (n * 2 ^ (-((n.log2 : ℤ) - 52)))
  set M' := roundEven (m * 2 ^ (-((m.log2 : ℤ) - 52)))
  have hless : ((n.log2 : ℤ) - 52 + 1074).toNat * binade + M <
      ((m.log2 : ℤ) - 52 + 1074).toNat * binade + M' := by
    simp only [binade]
    omega
  rw [eq_comm, ofCode_eq_iff hless, ofCode_eq_infinity_iff]

/-- The sign of a rounded number is put on after rounding. -/
theorem negate_ofValue (q : ℚ) : (ofValue false q).negate = ofValue true q := by
  unfold ofValue ofCode
  split
  · rfl
  · simp only
    split
    · rfl
    · rfl

end YamlCodec.Double
