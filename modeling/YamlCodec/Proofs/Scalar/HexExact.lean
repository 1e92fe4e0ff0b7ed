import YamlCodec.Proofs.Double.Representable
import YamlCodec.Proofs.Scalar.FloatLiteral

/-!
# Hexadecimal literals of magnitudes

A hexadecimal literal whose value is a magnitude has at most 53 bits before the last zeros of its digits,
so its digits add up without loss while they stay below `2 ^ 1024`. The sum is then multiplied by the
exponent's power of two less four for every digit behind the point. That power is formed apart, so it has
to be within the range itself: the literal is read as its value unless the sum, or the power, leaves the
range before the two are multiplied.
-/

set_option autoImplicit false

namespace YamlCodec.Scalar
open Text Double

/-- A hexadecimal literal with its sign, the number that its digits write without the point, how many of
them follow the point, and its exponent. -/
inductive Float.Hexadecimal : List Char → Bool → ℕ → ℕ → ℤ → Prop
  | intro {sign m e : List Char} {x : Char} {n k : ℕ} {z : ℤ} :
      sign ∈ Sign.texts → x ∈ ['x', 'X'] → Mantissa 16 m n k → Exponent ['p', 'P'] e z →
      Hexadecimal (sign ++ '0' :: x :: (m ++ e)) (sign == ['-']) n k z

namespace HexFloat

/-- The power of two that the sum of the digits is multiplied by. -/
def power (k : ℕ) (z : ℤ) : ℤ := capped z - 4 * k

/-- The digits and the power stay within the range before they are multiplied. -/
def Direct (n k : ℕ) (z : ℤ) : Prop :=
  k < 2 ^ 29 ∧ if n = 0 then power k z ≤ 1023 else n < 2 ^ 1024 ∧ -1023 ≤ power k z

instance (n k : ℕ) (z : ℤ) : Decidable (Direct n k z) := inferInstanceAs (Decidable (_ ∧ _))

/-- What the product is where they do not. -/
def spoiled (negative : Bool) (n k : ℕ) (z : ℤ) : Double :=
  if n = 0 then .nan
  else if n < 2 ^ 1024 then zero negative
  else if power k z < -1023 then .nan
  else .infinity negative

theorem negate_spoiled (n k : ℕ) (z : ℤ) : (spoiled false n k z).negate = spoiled true n k z := by
  unfold spoiled
  split_ifs <;> rfl

/-! ## Digits -/

/-- A number of at most 53 bits before its last zeros is kept. -/
theorem kept_short {M : ℕ} (hM : M < 2 ^ 53) (j : ℕ) : kept (M * 2 ^ j) = M * 2 ^ j := by
  rcases Nat.eq_zero_or_pos M with rfl | hpos
  · rw [Nat.zero_mul]
    exact kept_of_lt (by norm_num)
  · have hne : M * 2 ^ j ≠ 0 := (Nat.mul_pos hpos (Nat.two_pow_pos j)).ne'
    have hlog : (M * 2 ^ j).log2 < 53 + j := by
      rw [Nat.log2_lt hne, pow_add]
      exact Nat.mul_lt_mul_of_pos_right hM (Nat.two_pow_pos j)
    have hdvd : 16 ^ lost (M * 2 ^ j) ∣ M * 2 ^ j := by
      rw [show (16 : ℕ) = 2 ^ 4 by norm_num, ← pow_mul]
      apply Dvd.dvd.mul_left
      apply pow_dvd_pow
      rw [lost]
      omega
    exact Nat.div_mul_cancel hdvd

/-- The digits of a literal for a magnitude have at most 53 bits before their last zeros. -/
theorem exists_short {n M : ℕ} {s t : ℤ} (hM : M < 2 ^ 53) (h : (n : ℚ) * 2 ^ t = M * 2 ^ s) :
    ∃ N < 2 ^ 53, ∃ j, n = N * 2 ^ j := by
  have hshift (k : ℤ) : (n : ℚ) * 2 ^ (t + k) = M * 2 ^ (s + k) := by
    rw [zpow_add₀ (by norm_num), zpow_add₀ (by norm_num), ← mul_assoc, h, mul_assoc]
  rcases le_total t s with hle | hge
  · refine ⟨M, hM, (s - t).toNat, ?_⟩
    have hn := hshift (-t)
    rw [add_neg_cancel, zpow_zero, mul_one, ← sub_eq_add_neg, ← Int.toNat_of_nonneg (sub_nonneg.mpr hle),
      zpow_natCast] at hn
    exact_mod_cast hn
  · refine ⟨n, ?_, 0, by rw [pow_zero, mul_one]⟩
    have hm := hshift (-s)
    rw [add_neg_cancel, zpow_zero, mul_one, ← sub_eq_add_neg, ← Int.toNat_of_nonneg (sub_nonneg.mpr hge),
      zpow_natCast] at hm
    have hm' : n * 2 ^ (t - s).toNat = M := by exact_mod_cast hm
    exact ((Nat.le_mul_of_pos_right n (Nat.two_pow_pos _)).trans_eq hm').trans_lt hM

/-! ## The power of two -/

/-- The exponent counts in full where the power is in the range. -/
theorem power_place {k : ℕ} {z : ℤ} (hk : k < 2 ^ 29) (hl : -2098 < z - 4 * k) (hu : z - 4 * k ≤ 1023) :
    power k z ≤ 1023 ∧ (-1023 ≤ power k z → power k z = z - 4 * k) := by
  rw [power, capped]
  split
  · exact ⟨hu, fun _ => rfl⟩
  · -- an exponent past 32 bits goes with so many digits that half the range is too small for them
    have hsign : z.sign = 1 := Int.sign_eq_one_of_pos (by omega)
    rw [hsign]
    omega

/-- A sum within the range, times a power that is at most `2 ^ 1023`. -/
theorem scaleBy_sum {sum : Fin magnitudes} {p : ℤ} (hp : p ≤ 1023) :
    scaleBy (.finite false sum) p =
      if p < -1023 then zero false else ofValue false ((ratio sum.val).value * 2 ^ p) := by
  rw [scaleBy, if_neg (not_lt.mpr hp), ofRatio_eq _ (Ratio.scaled_den_pos (ratio_den_pos _) (by decide) _),
    Ratio.scaled_value _ (by decide)]
  rfl

section
variable {n k : ℕ} {z : ℤ} {code : Fin magnitudes}
  (hvalue : (ratio code.val).value = n * 16 ^ (-(k : ℤ)) * 2 ^ z)
include hvalue

theorem value_place : (ratio code.val).value = n * 2 ^ (z - 4 * k) := by
  rw [hvalue, mul_assoc, show (16 : ℚ) = 2 ^ (4 : ℤ) by norm_num, ← zpow_mul, ← zpow_add₀ (by norm_num)]
  congr 2
  ring

theorem code_eq_zero_iff : code.val = 0 ↔ n = 0 := by
  rw [← ratio_strictMono.injective.eq_iff (a := code.val), ratio_zero, value_place hvalue,
    mul_eq_zero, or_iff_left (zpow_ne_zero _ two_ne_zero), Nat.cast_eq_zero]

/-- The power of two of a magnitude from digits within the range is in the range but below one. -/
theorem place_bounds (hn : n ≠ 0) (hlimit : n < 2 ^ 1024) : -2098 < z - 4 * k ∧ z - 4 * k ≤ 1023 := by
  have hplace := value_place hvalue
  constructor
  · have hleast := least_le_ratio (mt (code_eq_zero_iff hvalue).mp hn)
    have hpower : (2 : ℚ) ^ (-1074 : ℤ) < 2 ^ (1024 + (z - 4 * k)) := by
      calc (2 : ℚ) ^ (-1074 : ℤ) ≤ n * 2 ^ (z - 4 * k) := hplace ▸ hleast
        _ < 2 ^ 1024 * 2 ^ (z - 4 * k) := by
          gcongr
          exact natCast_lt_limit_iff.mpr hlimit
        _ = 2 ^ (1024 + (z - 4 * k)) := by
          rw [zpow_add₀ (by norm_num)]
          rfl
    have := (zpow_lt_zpow_iff_right₀ (by norm_num)).mp hpower
    omega
  · have hone : (1 : ℚ) ≤ n := Nat.one_le_cast.mpr (Nat.one_le_iff_ne_zero.mpr hn)
    have hpower : (2 : ℚ) ^ (z - 4 * k) < 2 ^ (1024 : ℤ) := by
      calc (2 : ℚ) ^ (z - 4 * k) = 1 * 2 ^ (z - 4 * k) := (one_mul _).symm
        _ ≤ n * 2 ^ (z - 4 * k) := by gcongr
        _ < 2 ^ (1024 : ℤ) := hplace ▸ lt_magnitudes_iff.mp code.isLt
    have := (zpow_lt_zpow_iff_right₀ (by norm_num)).mp hpower
    omega

/-- What is read of a literal for a magnitude, but for its sign. -/
theorem scaleBy_magnitude (hk : k < 2 ^ 29) :
    scaleBy (ofValue false (kept n)) (power k z) =
      if Direct n k z then .finite false code else spoiled false n k z := by
  obtain ⟨M, s, hM, -, hs⟩ := exists_significand code.val
  obtain ⟨N, hN, j, hshort⟩ := exists_short hM ((value_place hvalue).symm.trans hs)
  have hkept : kept n = n := hshort ▸ kept_short hN j
  have hcode := code_eq_zero_iff hvalue
  rw [hkept]
  by_cases hn : n = 0
  · have hzero : ofValue false (n : ℚ) = zero false := by simp [hn, ofValue]
    have hread : Double.finite false code = zero false :=
      congrArg (Double.finite false) (Fin.ext (hcode.mpr hn))
    rw [hzero, hread]
    simp only [Direct, spoiled, hk, hn, if_true, true_and]
    by_cases hin : power k z ≤ 1023
    · rw [zero, scaleBy_sum hin, ratio_zero, zero_mul, ofValue, if_pos rfl, ite_self, if_pos hin, zero]
    · rw [zero, scaleBy, if_pos (not_le.mp hin), if_pos rfl, if_neg hin]
  · rcases Nat.lt_or_ge n (2 ^ 1024) with hlimit | hpast
    · obtain ⟨hl, hu⟩ := place_bounds hvalue hn hlimit
      obtain ⟨hp, hfull⟩ := power_place hk hl hu
      obtain ⟨sum, hsum, hvalue'⟩ := ofValue_short false hN (hshort ▸ hlimit)
      rw [← hshort] at hsum hvalue'
      rw [hsum, scaleBy_sum hp, hvalue']
      simp only [Direct, spoiled, hk, hn, hlimit, if_false, if_true, true_and]
      by_cases hin : -1023 ≤ power k z
      · rw [if_neg (not_lt.mpr hin), if_pos hin, hfull hin, ← value_place hvalue]
        exact ofValue_ratio false code (mt hcode.mp hn)
      · rw [if_pos (not_le.mp hin), if_neg hin]
    · have hover : ofValue false (n : ℚ) = .infinity false :=
        ofValue_overflow false (not_lt.mp (mt natCast_lt_limit_iff.mp (not_lt.mpr hpast)))
      rw [hover]
      simp only [scaleBy, Direct, spoiled, hn, not_lt.mpr hpast, if_false, false_and, and_false]

theorem spoiled_ne (negative : Bool) : spoiled negative n k z ≠ .finite negative code := by
  intro h
  unfold spoiled at h
  split_ifs at h with hn
  rw [zero, Double.finite.injEq] at h
  exact hn ((code_eq_zero_iff hvalue).mp (h.2 ▸ rfl))

end

/-! ## Literals -/

/-- The sign is put on what the rest of a hexadecimal literal is read as. -/
theorem read?_hexadecimal {cs : List Char} {negative : Bool} {n k : ℕ} {z : ℤ}
    (h : Float.Hexadecimal cs negative n k z) :
    Float.read? cs = if k < 2 ^ 29 then
      some (if negative then (scaleBy (ofValue false (kept n)) (power k z)).negate
        else scaleBy (ofValue false (kept n)) (power k z)) else none := by
  obtain ⟨hsign, hx, hm, he⟩ := h
  have hbody := Float.Unsigned.hexadecimal hx hm he
  rw [Float.read?_eq, Sign.split_append hsign hbody.head]
  simp only [marked_eq_some_iff.mpr ⟨_, hx, rfl⟩, read?_literal hm he]
  by_cases hk : k < 2 ^ 29
  · rw [if_pos hk, if_pos hk]
    rfl
  · rw [if_neg hk, if_neg hk]
    rfl

/-- A hexadecimal literal whose value is a magnitude is read as this magnitude with the literal's sign just
if its digits and its power of two stay within the range before they are multiplied. Else a zero is read as
not-a-number, digits within the range as zero, and digits past the range as an infinity or not-a-number. -/
theorem hexadecimal_exact_iff {cs : List Char} {negative : Bool} {n k : ℕ} {z : ℤ} {code : Fin magnitudes}
    (h : Float.Hexadecimal cs negative n k z)
    (hvalue : (ratio code.val).value = n * 16 ^ (-(k : ℤ)) * 2 ^ z) :
    (Float.read? cs = some (.finite negative code) ↔ Direct n k z) ∧
    (k < 2 ^ 29 → ¬ Direct n k z → Float.read? cs = some (spoiled negative n k z)) := by
  have hspoiled (hk : k < 2 ^ 29) (hnot : ¬ Direct n k z) :
      Float.read? cs = some (spoiled negative n k z) := by
    rw [read?_hexadecimal h, if_pos hk, scaleBy_magnitude hvalue hk, if_neg hnot]
    cases negative with
    | false => rfl
    | true => rw [if_pos rfl, negate_spoiled]
  refine ⟨⟨?_, ?_⟩, hspoiled⟩
  · intro hread
    by_contra hnot
    by_cases hk : k < 2 ^ 29
    · rw [hspoiled hk hnot, Option.some.injEq] at hread
      exact spoiled_ne hvalue negative hread
    · rw [read?_hexadecimal h, if_neg hk] at hread
      cases hread
  · intro hdirect
    rw [read?_hexadecimal h, if_pos hdirect.1, scaleBy_magnitude hvalue hdirect.1, if_pos hdirect]
    cases negative with
    | false => rfl
    | true => rfl

/-- Minus three, with a digit on either side of the point. -/
theorem hexadecimal_exact_negative :
    Float.Hexadecimal "-0x1.8p1".toList true 24 1 1 ∧
    (ratio (⟨0x4008000000000000, by decide⟩ : Fin magnitudes).val).value =
      (24 : ℕ) * 16 ^ (-((1 : ℕ) : ℤ)) * 2 ^ (1 : ℤ) ∧
    Float.read? "-0x1.8p1".toList = some (.finite true ⟨0x4008000000000000, by decide⟩) := by
  have hdigits : Digit.Writes 16 (['1'] ++ ['8']) 24 := Digit.writes_iff.mpr rfl
  have hexponent : Integer.Signed 10 [] ['1'] 1 := .bare (Digit.writes_iff.mpr rfl)
  have hliteral : Float.Hexadecimal "-0x1.8p1".toList true 24 1 1 :=
    .intro (show ['-'] ∈ Sign.texts by decide) (show 'x' ∈ ['x', 'X'] by decide) (.pointed hdigits)
      (.present (show 'p' ∈ ['p', 'P'] by decide) hexponent)
  have hvalue : (ratio (⟨0x4008000000000000, by decide⟩ : Fin magnitudes).val).value =
      (24 : ℕ) * 16 ^ (-((1 : ℕ) : ℤ)) * 2 ^ (1 : ℤ) := by
    norm_num [ratio_value, significand, scale, binade]
  exact ⟨hliteral, hvalue, (hexadecimal_exact_iff hliteral hvalue).1.mpr (by decide +kernel)⟩

/-- A whole number of hexadecimal digits with an exponent and without a sign. -/
theorem hexadecimal_whole {ds sign es : List Char} {n : ℕ} {z : ℤ} (hd : Digit.number? 16 ds = some n)
    (he : Integer.Signed 10 sign es z) :
    Float.Hexadecimal ('0' :: 'x' :: (ds ++ 'p' :: (sign ++ es))) false n 0 z :=
  .intro (show [] ∈ Sign.texts by decide) (show 'x' ∈ ['x', 'X'] by decide)
    (.whole (Digit.writes_iff.mpr hd)) (.present (show 'p' ∈ ['p', 'P'] by decide) he)

/-- A zero times a power past the range, the least magnitude as a power below it, and half of digits past
the range. -/
theorem hexadecimal_spoiled :
    (Float.Hexadecimal "0x0p1024".toList false 0 0 1024 ∧
      (ratio 0).value = (0 : ℕ) * 16 ^ (-((0 : ℕ) : ℤ)) * 2 ^ (1024 : ℤ) ∧
      Float.read? "0x0p1024".toList = some .nan) ∧
    (Float.Hexadecimal "0x1p-1074".toList false 1 0 (-1074) ∧
      (ratio 1).value = (1 : ℕ) * 16 ^ (-((0 : ℕ) : ℤ)) * 2 ^ (-1074 : ℤ) ∧
      Float.read? "0x1p-1074".toList = some (zero false)) ∧
    (Float.Hexadecimal ("0x1".toList ++ List.replicate 256 '0' ++ "p-1".toList) false (16 ^ 256) 0 (-1) ∧
      (ratio 0x7fe0000000000000).value = (16 ^ 256 : ℕ) * 16 ^ (-((0 : ℕ) : ℤ)) * 2 ^ (-1 : ℤ) ∧
      Float.read? ("0x1".toList ++ List.replicate 256 '0' ++ "p-1".toList) = some (.infinity false)) := by
  have hpast : Integer.Signed 10 [] "1024".toList 1024 := .bare (Digit.writes_iff.mpr rfl)
  have hleast : Integer.Signed 10 ['-'] "1074".toList (-1074) := .minus (Digit.writes_iff.mpr rfl)
  have hhalf : Integer.Signed 10 ['-'] ['1'] (-1) := .minus (Digit.writes_iff.mpr rfl)
  have hzeros : Digit.number? 16 ('1' :: List.replicate 256 '0') = some (16 ^ 256) := by decide +kernel
  have htext (zeros : List Char) : "0x1".toList ++ zeros ++ "p-1".toList =
      '0' :: 'x' :: ('1' :: zeros ++ 'p' :: (['-'] ++ ['1'])) := List.append_assoc _ _ _
  refine ⟨⟨hexadecimal_whole (show Digit.number? 16 ['0'] = _ from rfl) hpast, ?_, by decide +kernel⟩,
    ⟨hexadecimal_whole (show Digit.number? 16 ['1'] = _ from rfl) hleast, ?_, by decide +kernel⟩,
    ⟨htext _ ▸ hexadecimal_whole hzeros hhalf, ?_, by decide +kernel⟩⟩
  · rw [ratio_zero, Nat.cast_zero, zero_mul, zero_mul]
  · simp [ratio_value, significand, scale, binade]
  · have hsignificand : significand 0x7fe0000000000000 = 2 ^ 52 := by decide
    have hscale : scale 0x7fe0000000000000 = 971 := by decide
    have hdigits : (16 : ℕ) ^ 256 = 2 ^ 1024 := by rw [show (16 : ℕ) = 2 ^ 4 by rfl, ← pow_mul]
    rw [ratio_value, hsignificand, hscale, hdigits, Nat.cast_zero, neg_zero, zpow_zero, mul_one,
      Nat.cast_pow, Nat.cast_pow, Nat.cast_ofNat, ← zpow_natCast, ← zpow_natCast,
      ← zpow_add₀ two_ne_zero, ← zpow_add₀ two_ne_zero]
    rfl

end HexFloat
end YamlCodec.Scalar
