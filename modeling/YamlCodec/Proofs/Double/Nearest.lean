import YamlCodec.Proofs.Double.Integer

/-!
# Rounding goes to the nearest magnitude

The magnitudes, numbered by their codes, go up by one unit of their place at a time. Every number lies
between two neighbours at its own place, so the nearer of the two is the nearest of all, and of two that
are as near the one with the even code is taken. Codes past the last finite magnitude number the
magnitudes that would follow if exponents had no bound: what is nearest to one of them is an infinity.
-/

set_option autoImplicit false

namespace YamlCodec.Double

/-- The magnitude of a place and a significand, which at the least place may have any size. -/
theorem ratio_place {s : ℤ} {M : ℕ} (hs : -1074 ≤ s) (hl : 2 ^ 52 ≤ M ∨ s = -1074) (hu : M ≤ 2 ^ 53) :
    (ratio ((s + 1074).toNat * binade + M)).value = M * 2 ^ s := by
  by_cases hnormal : 2 ^ 52 ≤ M
  · exact ratio_code hs hnormal hu
  · obtain rfl := hl.resolve_left hnormal
    have hless : M < binade := by
      rw [binade_eq]
      omega
    simp [ratio_value, significand, scale, hless]

/-- Every code is made of a place and a significand. -/
theorem exists_place (code : ℕ) :
    ∃ (s : ℤ) (M : ℕ), -1074 ≤ s ∧ (2 ^ 52 ≤ M ∨ s = -1074) ∧ M < 2 ^ 53 ∧
      code = (s + 1074).toNat * binade + M := by
  by_cases hless : code < binade
  · refine ⟨-1074, code, le_rfl, .inr rfl, ?_, by simp⟩
    rw [binade_eq] at hless
    omega
  · have hdiv : 1 ≤ code / binade := (Nat.le_div_iff_mul_le (by decide)).mpr (by omega)
    have hmod := Nat.mod_lt code (show 0 < binade by decide)
    have hsplit := Nat.div_add_mod' code binade
    refine ⟨(code / binade : ℕ) - 1075, binade + code % binade, by omega, .inl ?_, ?_, ?_⟩
    · rw [binade_eq]
      omega
    · rw [binade_eq] at hmod ⊢
      omega
    · rw [show ((code / binade : ℕ) - 1075 + 1074 : ℤ).toNat = code / binade - 1 by omega,
        ← Nat.add_assoc, Nat.sub_one_mul, Nat.sub_add_cancel (Nat.le_mul_of_pos_left _ hdiv), hsplit]

theorem ratio_strictMono : StrictMono fun code => (ratio code).value := by
  apply strictMono_nat_of_lt_succ
  intro code
  obtain ⟨s, M, hs, hl, hu, rfl⟩ := exists_place code
  have hnext : 2 ^ 52 ≤ M + 1 ∨ s = -1074 := hl.imp_left Nat.le_succ_of_le
  simp only [Nat.add_assoc]
  rw [ratio_place hs hl hu.le, ratio_place hs hnext hu]
  gcongr
  exact Nat.lt_succ_self M

/-- No code has a magnitude nearer to a number, and another as near only if this one is even. -/
def IsNearest (q : ℚ) (code : ℕ) : Prop :=
  ∀ other ≠ code, |q - (ratio code).value| < |q - (ratio other).value| ∨
    (|q - (ratio code).value| = |q - (ratio other).value| ∧ code % 2 = 0)

section
variable {q : ℚ} {code : ℕ}

/-- The lower of the neighbours is nearest to the numbers up to the middle, and to it if it is even. -/
theorem isNearest_lower (hl : (ratio code).value ≤ q)
    (hhalf : 2 * q ≤ (ratio code).value + (ratio (code + 1)).value)
    (heven : 2 * q = (ratio code).value + (ratio (code + 1)).value → code % 2 = 0) :
    IsNearest q code := by
  intro other hne
  have hu : (ratio code).value < (ratio (code + 1)).value := ratio_strictMono (Nat.lt_succ_self code)
  rw [abs_of_nonneg (sub_nonneg.mpr hl)]
  rcases Nat.lt_or_gt_of_ne hne with hless | hmore
  · have hother : (ratio other).value < (ratio code).value := ratio_strictMono hless
    rw [abs_of_pos (by linarith)]
    left
    linarith
  · have hother : (ratio (code + 1)).value ≤ (ratio other).value := ratio_strictMono.monotone hmore
    rw [abs_of_neg (by linarith)]
    by_cases hnear : q - (ratio code).value < -(q - (ratio other).value)
    · exact .inl hnear
    · right
      exact ⟨by linarith, heven (by linarith)⟩

/-- The upper of the neighbours is nearest to the numbers from the middle on, and to it if it is even. -/
theorem isNearest_upper (hu : q < (ratio (code + 1)).value)
    (hhalf : (ratio code).value + (ratio (code + 1)).value ≤ 2 * q)
    (heven : 2 * q = (ratio code).value + (ratio (code + 1)).value → (code + 1) % 2 = 0) :
    IsNearest q (code + 1) := by
  intro other hne
  rw [abs_of_neg (sub_neg.mpr hu)]
  rcases Nat.lt_or_gt_of_ne hne with hless | hmore
  · have hother : (ratio other).value ≤ (ratio code).value :=
      ratio_strictMono.monotone (Nat.le_of_lt_succ hless)
    rw [abs_of_nonneg (by linarith)]
    by_cases hnear : -(q - (ratio (code + 1)).value) < q - (ratio other).value
    · exact .inl hnear
    · right
      exact ⟨by linarith, heven (by linarith)⟩
  · have hother : (ratio (code + 1)).value < (ratio other).value := ratio_strictMono hmore
    rw [abs_of_neg (by linarith)]
    left
    linarith

end

/-- A number is rounded to the natural number below it or to the one above, whichever is nearer. -/
theorem roundEven_cases (q : ℚ) :
    (roundEven q = ⌊q⌋₊ ∧ 2 * (q - ⌊q⌋₊) ≤ 1 ∧ (2 * (q - ⌊q⌋₊) = 1 → ⌊q⌋₊ % 2 = 0)) ∨
    (roundEven q = ⌊q⌋₊ + 1 ∧ 1 ≤ 2 * (q - ⌊q⌋₊) ∧ (2 * (q - ⌊q⌋₊) = 1 → (⌊q⌋₊ + 1) % 2 = 0)) := by
  rw [roundEven]
  split
  · rename_i hc
    have hlt := compare_lt_iff_lt.mp hc
    exact .inl ⟨rfl, hlt.le, fun h => absurd h hlt.ne⟩
  · rename_i hc
    have hgt := compare_gt_iff_gt.mp hc
    exact .inr ⟨rfl, hgt.le, fun h => absurd h hgt.ne'⟩
  · rename_i hc
    have heq := compare_eq_iff_eq.mp hc
    split
    · rename_i heven
      exact .inl ⟨rfl, heq.le, fun _ => heven⟩
    · exact .inr ⟨rfl, heq.ge, fun _ => by omega⟩

/-- Rounding the significand at its place gives the nearest code. -/
theorem isNearest_place {q : ℚ} {s : ℤ} (hq : 0 < q) (hs : -1074 ≤ s)
    (hlow : 2 ^ 52 ≤ q * 2 ^ (-s) ∨ s = -1074) (hup : q * 2 ^ (-s) < 2 ^ 53) :
    IsNearest q ((s + 1074).toNat * binade + roundEven (q * 2 ^ (-s))) := by
  set M := ⌊q * 2 ^ (-s)⌋₊
  set code := (s + 1074).toNat * binade + M with hcode
  have hlM : 2 ^ 52 ≤ M ∨ s = -1074 := hlow.imp_left fun h => Nat.le_floor (by exact_mod_cast h)
  have huM : M < 2 ^ 53 := (Nat.floor_lt (by positivity)).mpr (by exact_mod_cast hup)
  have hlower : (ratio code).value = M * 2 ^ s := ratio_place hs hlM huM.le
  have hupper : (ratio (code + 1)).value = (M + 1 : ℕ) * 2 ^ s := by
    rw [hcode, Nat.add_assoc]
    exact ratio_place hs (hlM.imp_left Nat.le_succ_of_le) huM
  have hparity : code % 2 = M % 2 := by
    rw [hcode, Nat.add_mod, Nat.mul_mod, show binade % 2 = 0 by decide]
    simp
  have hpow : (0 : ℚ) < 2 ^ s := by positivity
  -- distances are measured in units of the place
  have hunits : q = q * 2 ^ (-s) * 2 ^ s := by
    rw [mul_assoc, ← zpow_add₀ (by norm_num), neg_add_cancel, zpow_zero, mul_one]
  have hfloor : (M : ℚ) ≤ q * 2 ^ (-s) := Nat.floor_le (by positivity)
  have hceil : q * 2 ^ (-s) < (M + 1 : ℕ) := by exact_mod_cast Nat.lt_floor_add_one (q * 2 ^ (-s))
  have hmiddle : (ratio code).value + (ratio (code + 1)).value - 2 * q =
      (1 - 2 * (q * 2 ^ (-s) - M)) * 2 ^ s := by
    rw [hlower, hupper]
    push_cast
    linear_combination (-2) * hunits
  have htie (heq : 2 * q = (ratio code).value + (ratio (code + 1)).value) :
      2 * (q * 2 ^ (-s) - M) = 1 := by
    have hzero : (1 - 2 * (q * 2 ^ (-s) - M)) * 2 ^ s = 0 := by linarith
    have hfactor := (mul_eq_zero.mp hzero).resolve_right hpow.ne'
    linarith
  rcases roundEven_cases (q * 2 ^ (-s)) with ⟨hround, hhalf, heven⟩ | ⟨hround, hhalf, heven⟩
  · rw [hround]
    apply isNearest_lower
    · rw [hlower, hunits]
      gcongr
    · have : 0 ≤ (1 - 2 * (q * 2 ^ (-s) - M)) * 2 ^ s := mul_nonneg (by linarith) hpow.le
      linarith
    · intro heq
      rw [hparity]
      exact heven (htie heq)
  · rw [hround, ← Nat.add_assoc]
    apply isNearest_upper
    · rw [hupper, hunits]
      gcongr
    · have : (1 - 2 * (q * 2 ^ (-s) - M)) * 2 ^ s ≤ 0 :=
        mul_nonpos_of_nonpos_of_nonneg (by linarith) hpow.le
      linarith
    · intro heq
      rw [Nat.add_mod, hparity, ← Nat.add_mod]
      exact heven (htie heq)

/-- A positive number is rounded at its own place or at the least one. -/
theorem ofValue_place (negative : Bool) {q : ℚ} (hq : 0 < q) :
    ∃ s : ℤ, -1074 ≤ s ∧ (2 ^ 52 ≤ q * 2 ^ (-s) ∨ s = -1074) ∧ q * 2 ^ (-s) < 2 ^ 53 ∧
      ofValue negative q = ofCode negative ((s + 1074).toNat * binade + roundEven (q * 2 ^ (-s))) := by
  have hbounds := significand_bounds hq
  refine ⟨max (Int.log 2 q - 52) (-1074), le_max_right _ _, ?_, ?_, by rw [ofValue, if_neg hq.ne']⟩
  · rcases le_total (Int.log 2 q - 52) (-1074) with hle | hge
    · exact .inr (max_eq_right hle)
    · rw [max_eq_left hge]
      exact .inl hbounds.1
  · calc q * 2 ^ (-max (Int.log 2 q - 52) (-1074)) ≤ q * 2 ^ (-(Int.log 2 q - 52)) := by
          gcongr
          · norm_num
          · exact le_max_left _ _
      _ < 2 ^ 53 := hbounds.2

/-- A number is rounded to the nearest magnitude, and what is nearest past the last one is infinite. -/
theorem ofValue_nearest (negative : Bool) {q : ℚ} (hq : 0 ≤ q) :
    ∃ code, ofValue negative q = ofCode negative code ∧ IsNearest q code := by
  rcases hq.eq_or_lt with rfl | hq
  · refine ⟨0, by simp [ofValue, ofCode, zero, magnitudes], ?_⟩
    intro other hne
    have hpos := ratio_strictMono (Nat.pos_of_ne_zero hne)
    simp only [ratio_zero] at hpos ⊢
    left
    rwa [sub_zero, abs_zero, zero_sub, abs_neg, abs_of_pos hpos]
  · obtain ⟨s, hs, hlow, hup, hvalue⟩ := ofValue_place negative hq
    exact ⟨_, hvalue, isNearest_place hq hs hlow hup⟩

/-- What a number is rounded to, if it is finite, is nearest to it. -/
theorem isNearest_of_ofValue {negative : Bool} {q : ℚ} (hq : 0 ≤ q) {code : Fin magnitudes}
    (h : ofValue negative q = .finite negative code) : IsNearest q code := by
  obtain ⟨code', hcode, hnearest⟩ := ofValue_nearest negative hq
  rw [h, ofCode] at hcode
  split at hcode
  · cases hcode
    exact hnearest
  · cases hcode

/-- Two codes that were both nearest would both be even, with a nearer one between them. -/
theorem IsNearest.unique {q : ℚ} {code code' : ℕ} (h : IsNearest q code) (h' : IsNearest q code') :
    code = code' := by
  wlog hle : code ≤ code' generalizing code code'
  · exact (this h' h (Nat.le_of_not_le hle)).symm
  by_contra hne
  obtain hless | ⟨heq, heven⟩ := h code' (Ne.symm hne)
  · rcases h' code hne with hless' | ⟨heq', -⟩ <;> linarith
  obtain hless' | ⟨-, heven'⟩ := h' code hne
  · linarith
  -- between them lies the code after the lower one, since that one is odd
  have hlow : (ratio code).value < (ratio (code + 1)).value := ratio_strictMono (Nat.lt_succ_self code)
  have hhigh : (ratio (code + 1)).value < (ratio code').value := ratio_strictMono (by omega)
  have hbetween : |q - (ratio code).value| ≤ |q - (ratio (code + 1)).value| := by
    rcases h (code + 1) (by omega) with hless | ⟨heq, -⟩
    · exact hless.le
    · exact heq.le
  rcases abs_cases (q - (ratio code).value) with ⟨h₁, _⟩ | ⟨h₁, _⟩ <;>
    rcases abs_cases (q - (ratio (code + 1)).value) with ⟨h₂, _⟩ | ⟨h₂, _⟩ <;>
      rcases abs_cases (q - (ratio code').value) with ⟨h₃, _⟩ | ⟨h₃, _⟩ <;> linarith

/-- An integer is rounded to the nearest double, and to an infinity past the range. -/
theorem ofInt_nearest (z : ℤ) :
    ∃ code, ofInt z = ofCode (z < 0) code ∧ IsNearest z.natAbs code := by
  rw [ofInt_eq]
  exact ofValue_nearest _ (Nat.cast_nonneg _)

end YamlCodec.Double
