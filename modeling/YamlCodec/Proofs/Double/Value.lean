import Mathlib
import YamlCodec.Double.Rounding

/-!
# Rounding as a function of the number rounded

A quotient, a decimal and a magnitude denote rational numbers. Rounding reads numerators and
denominators, but its result depends on the rational number alone.
-/

set_option autoImplicit false

namespace YamlCodec.Double

namespace Ratio

/-- The rational number that a quotient denotes. -/
def value (r : Ratio) : ℚ := r.num / r.den

theorem scaled_den_pos {r : Ratio} (hr : 0 < r.den) {b : ℕ} (hb : 0 < b) (e : ℤ) :
    0 < (r.scaled b e).den := by
  cases e with
  | ofNat k => exact hr
  | negSucc k => exact Nat.mul_pos hr (Nat.pow_pos hb)

theorem scaled_value (r : Ratio) {b : ℕ} (hb : 0 < b) (e : ℤ) :
    (r.scaled b e).value = r.value * (b : ℚ) ^ e := by
  have hb' : (b : ℚ) ≠ 0 := by positivity
  cases e with
  | ofNat k =>
    simp only [scaled, value, Nat.pow_eq, Int.ofNat_eq_natCast, zpow_natCast]
    push_cast
    ring
  | negSucc k =>
    simp only [scaled, value, Nat.pow_eq, zpow_negSucc]
    push_cast
    field_simp

theorem value_pos {r : Ratio} (hn : r.num ≠ 0) (hd : 0 < r.den) : 0 < r.value := by
  have : 0 < r.num := Nat.pos_of_ne_zero hn
  unfold value
  positivity

theorem value_eq_zero_iff {r : Ratio} (hd : 0 < r.den) : r.value = 0 ↔ r.num = 0 := by
  have : (r.den : ℚ) ≠ 0 := by positivity
  simp [value, this]

theorem floor_eq (r : Ratio) : r.floor = ⌊r.value⌋₊ := (Nat.floor_div_eq_div r.num r.den).symm

/-- What is left of a quotient above its floor. -/
theorem value_sub_floor {r : Ratio} (hd : 0 < r.den) :
    r.value - r.floor = ((r.num % r.den : ℕ) : ℚ) / r.den := by
  have hd' : (r.den : ℚ) ≠ 0 := by positivity
  have h : (r.num : ℚ) = r.den * (r.num / r.den : ℕ) + (r.num % r.den : ℕ) := by
    exact_mod_cast (Nat.div_add_mod r.num r.den).symm
  rw [value, floor, eq_div_iff hd', sub_mul, div_mul_cancel₀ _ hd', h]
  ring

theorem half_eq {r : Ratio} (hd : 0 < r.den) :
    r.half = compare (2 * (r.value - r.floor)) 1 := by
  have hd' : (0 : ℚ) < r.den := by positivity
  have h : 2 * (r.value - r.floor) = ((2 * (r.num % r.den) : ℕ) : ℚ) / r.den := by
    rw [value_sub_floor hd]
    push_cast
    ring
  rw [h, half]
  rcases lt_trichotomy (2 * (r.num % r.den)) r.den with hlt | heq | hgt
  · have : ((2 * (r.num % r.den) : ℕ) : ℚ) / r.den < 1 := by
      rw [div_lt_one hd']
      exact_mod_cast hlt
    rw [compare_lt_iff_lt.mpr hlt, compare_lt_iff_lt.mpr this]
  · have : ((2 * (r.num % r.den) : ℕ) : ℚ) / r.den = 1 := by
      rw [div_eq_one_iff_eq hd'.ne']
      exact_mod_cast heq
    rw [compare_eq_iff_eq.mpr heq, compare_eq_iff_eq.mpr this]
  · have : 1 < ((2 * (r.num % r.den) : ℕ) : ℚ) / r.den := by
      rw [one_lt_div hd']
      exact_mod_cast hgt
    rw [compare_gt_iff_gt.mpr hgt, compare_gt_iff_gt.mpr this]

end Ratio

/-- The natural number nearest to a rational one, a half going to the even one. -/
def roundEven (q : ℚ) : ℕ :=
  match compare (2 * (q - ⌊q⌋₊)) 1 with
  | .lt => ⌊q⌋₊
  | .gt => ⌊q⌋₊ + 1
  | .eq => if ⌊q⌋₊ % 2 = 0 then ⌊q⌋₊ else ⌊q⌋₊ + 1

theorem roundEven_natCast (n : ℕ) : roundEven n = n := by
  have : compare (2 * ((n : ℚ) - ⌊(n : ℚ)⌋₊)) 1 = .lt := by
    rw [compare_lt_iff_lt]
    simp
  rw [roundEven, this]
  simp

theorem Ratio.round_eq {r : Ratio} (hd : 0 < r.den) : r.round = roundEven r.value := by
  have hhalf := Ratio.half_eq hd
  rw [Ratio.floor_eq] at hhalf
  unfold Ratio.round roundEven
  rw [Ratio.floor_eq]
  cases hc : r.half <;> simp only [hc] at hhalf ⊢ <;> simp only [← hhalf]

theorem roundEven_bounds {q : ℚ} {m n : ℕ} (hm : m ≤ q) (hn : q < n) :
    m ≤ roundEven q ∧ roundEven q ≤ n := by
  have hq : 0 ≤ q := le_trans (Nat.cast_nonneg m) hm
  have hl : m ≤ ⌊q⌋₊ := Nat.le_floor hm
  have hu : ⌊q⌋₊ < n := (Nat.floor_lt hq).mpr hn
  rw [roundEven]
  split
  · omega
  · omega
  · split <;> omega

theorem roundEven_eq_zero {q : ℚ} (h : q < 1 / 2) : roundEven q = 0 := by
  have hf : ⌊q⌋₊ = 0 := Nat.floor_eq_zero.mpr (by linarith)
  have hc : compare (2 * (q - ⌊q⌋₊)) 1 = .lt := by
    rw [compare_lt_iff_lt, hf]
    push_cast
    linarith
  rw [roundEven, hc]
  exact hf

/-- The number nearest to a rational number. -/
noncomputable def ofValue (negative : Bool) (q : ℚ) : Double :=
  if q = 0 then zero negative
  else
    let step := max (Int.log 2 q - 52) (-1074)
    ofCode negative ((step + 1074).toNat * binade + roundEven (q * 2 ^ (-step)))

namespace Ratio

theorem log2_le (n : ℕ) (hn : n ≠ 0) : (2 : ℚ) ^ (n.log2 : ℤ) ≤ n := by
  rw [zpow_natCast]
  exact_mod_cast Nat.log2_self_le hn

theorem lt_log2 (n : ℕ) : (n : ℚ) < 2 ^ ((n.log2 : ℤ) + 1) := by
  have h := Nat.lt_log2_self (n := n)
  rw [show ((n.log2 : ℤ) + 1) = ((n.log2 + 1 : ℕ) : ℤ) by push_cast; rfl, zpow_natCast]
  exact_mod_cast h

/-- The place of a quotient is that of its value. -/
theorem binaryPlace_eq {r : Ratio} (hn : r.num ≠ 0) (hd : 0 < r.den) :
    r.binaryPlace = Int.log 2 r.value := by
  have hv := value_pos hn hd
  have hd' : (0 : ℚ) < r.den := by positivity
  have hnl := log2_le r.num hn
  have hnu := lt_log2 r.num
  have hdl := log2_le r.den hd.ne'
  have hdu := lt_log2 r.den
  set k : ℤ := (r.num.log2 : ℤ) - r.den.log2 with hk
  have hlow : (2 : ℚ) ^ (k - 1) ≤ r.value := by
    rw [value, le_div_iff₀ hd']
    calc (2 : ℚ) ^ (k - 1) * r.den ≤ 2 ^ (k - 1) * 2 ^ ((r.den.log2 : ℤ) + 1) := by gcongr
      _ = 2 ^ (r.num.log2 : ℤ) := by rw [← zpow_add₀ (by norm_num)]; congr 1; omega
      _ ≤ r.num := hnl
  have hup : r.value < 2 ^ (k + 1) := by
    rw [value, div_lt_iff₀ hd']
    calc (r.num : ℚ) < 2 ^ ((r.num.log2 : ℤ) + 1) := hnu
      _ = 2 ^ (k + 1) * 2 ^ (r.den.log2 : ℤ) := by
        rw [← zpow_add₀ (by norm_num)]; congr 1; omega
      _ ≤ 2 ^ (k + 1) * r.den := by gcongr
  have hlog {x : ℤ} (h1 : (2 : ℚ) ^ x ≤ r.value) (h2 : r.value < 2 ^ (x + 1)) :
      x = Int.log 2 r.value := by
    have h1 := (Int.zpow_le_iff_le_log (b := 2) (by decide) hv).mp (by exact_mod_cast h1)
    have h2 := (Int.lt_zpow_iff_log_lt (b := 2) (by decide) hv).mp (by exact_mod_cast h2)
    omega
  have htest : (r.scaled 2 (-k)).den ≤ (r.scaled 2 (-k)).num ↔ (2 : ℚ) ^ k ≤ r.value := by
    have hp : (0 : ℚ) < (r.scaled 2 (-k)).den := by
      exact_mod_cast scaled_den_pos hd (by decide : 0 < 2) (-k)
    have hs := scaled_value r (by decide : 0 < 2) (-k)
    rw [← Nat.cast_le (α := ℚ), ← one_le_div hp]
    change 1 ≤ (r.scaled 2 (-k)).value ↔ _
    rw [hs, zpow_neg, ← div_eq_mul_inv, one_le_div (by positivity)]
    push_cast
    rfl
  rw [binaryPlace]
  simp only [← hk]
  split
  · exact hlog (htest.mp ‹_›) hup
  · refine hlog hlow ?_
    rw [sub_add_cancel]
    exact not_le.mp fun h => ‹¬ _› (htest.mpr h)

end Ratio

theorem ofRatio_eq (negative : Bool) {r : Ratio} (hd : 0 < r.den) :
    ofRatio negative r = ofValue negative r.value := by
  rw [ofRatio, ofValue]
  by_cases hn : r.num = 0
  · rw [if_pos hn, if_pos ((Ratio.value_eq_zero_iff hd).mpr hn)]
  · rw [if_neg hn, if_neg (mt (Ratio.value_eq_zero_iff hd).mp hn), Ratio.binaryPlace_eq hn hd]
    simp only [Ratio.round_eq (Ratio.scaled_den_pos hd (by decide : 0 < 2) _),
      Ratio.scaled_value r (by decide : 0 < 2)]
    push_cast
    rfl

end YamlCodec.Double
