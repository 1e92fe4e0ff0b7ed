import YamlCodec.Proofs.Double.Integer
import YamlCodec.Proofs.Scalar.Integer
import YamlCodec.Scalar.HexFloat

/-!
# Adding up hexadecimal digits

A run of digits is added up with rounding after each of them. Once the sum has more than 53 bits, a
digit is less than half a unit of the last bit of sixteen times the sum, and is lost. So what is rounded
is the number with its digits set to zero after the first that brings it to 53 bits.
-/

set_option autoImplicit false

namespace YamlCodec.Scalar.HexFloat
open YamlCodec.Text YamlCodec.Double
open YamlCodec.Text.Digit (value? run? number?)

/-- How many hexadecimal digits of a number come after the first that brings it to `2 ^ 53`. -/
def lost (n : ℕ) : ℕ := (n.log2 - 53) / 4

/-- A number with the digits that are lost set to zero. -/
def kept (n : ℕ) : ℕ := n / 16 ^ lost n * 16 ^ lost n

theorem kept_of_lt {n : ℕ} (h : n < 2 ^ 57) : kept n = n := by
  have hlost : lost n = 0 := by
    by_cases hn : n = 0
    · subst hn
      rfl
    · have := (Nat.log2_lt hn).mpr h
      rw [lost]
      omega
  rw [kept, hlost, pow_zero, Nat.div_one, Nat.mul_one]

theorem log2_add {n d : ℕ} (hn : n ≠ 0) (hd : d < 16) : (16 * n + d).log2 = n.log2 + 4 := by
  have hl := Nat.log2_self_le hn
  have hu := Nat.lt_log2_self (n := n)
  rw [Nat.log2_eq_iff (by omega)]
  rw [pow_succ] at hu
  constructor
  · rw [pow_add]
    omega
  · rw [show n.log2 + 4 + 1 = n.log2 + 1 + 4 by ring, pow_add, pow_succ]
    omega

/-- From 53 bits on, one more digit is one more that is lost. -/
theorem kept_add {n d : ℕ} (hn : 2 ^ 53 ≤ n) (hd : d < 16) : kept (16 * n + d) = 16 * kept n := by
  have hne : n ≠ 0 := by omega
  have hlog : 53 ≤ n.log2 := (Nat.le_log2 hne).mpr hn
  have hlost : lost (16 * n + d) = lost n + 1 := by
    rw [lost, lost, log2_add hne hd]
    omega
  have hdiv : (16 * n + d) / 16 ^ (lost n + 1) = n / 16 ^ lost n := by
    rw [pow_succ', ← Nat.div_div_eq_div_mul, Nat.mul_add_div (by decide), Nat.div_eq_of_lt hd,
      Nat.add_zero]
  rw [kept, kept, hlost, hdiv]
  ring

/-- The first bit of a number is kept. -/
theorem le_kept {n : ℕ} (hn : n ≠ 0) : 2 ^ n.log2 ≤ kept n := by
  have hbits : 4 * lost n ≤ n.log2 := by
    rw [lost]
    omega
  have hsplit : 2 ^ n.log2 = 2 ^ (n.log2 - 4 * lost n) * 16 ^ lost n := by
    rw [show (16 : ℕ) = 2 ^ 4 by norm_num, ← pow_mul, ← pow_add]
    congr 1
    omega
  rw [hsplit, kept]
  apply Nat.mul_le_mul_right
  rw [Nat.le_div_iff_mul_le (by positivity), ← hsplit]
  exact Nat.log2_self_le hn

theorem kept_ne_zero {n : ℕ} (hn : n ≠ 0) : kept n ≠ 0 :=
  ((Nat.two_pow_pos _).trans_le (le_kept hn)).ne'

theorem log2_kept {n : ℕ} (hn : n ≠ 0) : (kept n).log2 = n.log2 := by
  rw [Nat.log2_eq_iff (kept_ne_zero hn)]
  exact ⟨le_kept hn, (Nat.div_mul_le_self _ _).trans_lt Nat.lt_log2_self⟩

/-! ## One digit -/

theorem push_finite (negative : Bool) (code : Fin magnitudes) (d : ℕ) :
    push (.finite negative code) d = ofValue false (16 * (ratio code.val).value + d) := by
  have hden := ratio_den_pos code.val
  have hden' : ((ratio code.val).den : ℚ) ≠ 0 := by positivity
  have hvalue : (⟨16 * (ratio code.val).num + d * (ratio code.val).den, (ratio code.val).den⟩ : Ratio).value =
      16 * (ratio code.val).value + d := by
    simp only [Ratio.value]
    push_cast
    field_simp
  rw [← hvalue]
  exact ofRatio_eq false hden

/-- A digit is lost behind a sum of more than 53 bits. -/
theorem push_round {q : ℚ} {s : ℤ} (hs : 1 ≤ s) (hl : 2 ^ (s + 52) ≤ q) (hu : q < 2 ^ (s + 53)) {d : ℕ}
    (hd : d < 16) : push (ofValue false q) d = ofValue false (16 * q) := by
  have hsixteen (k : ℤ) : (2 : ℚ) ^ (s + 4 + k) = 16 * 2 ^ (s + k) := by
    rw [show s + 4 + k = s + k + 4 by ring, zpow_add₀ (by norm_num)]
    norm_num
    ring
  obtain ⟨hlow, hup⟩ := significand_rounded hl hu
  have hq := ofValue_normal false (by omega) hl hu
  have hnext : ofValue false (16 * q) =
      ofCode false ((s + 4 + 1074).toNat * binade + roundEven (q * 2 ^ (-s))) := by
    have hsame : 16 * q * 2 ^ (-(s + 4)) = q * 2 ^ (-s) := by
      rw [show -(s + 4) = -s + -4 by ring, zpow_add₀ (by norm_num)]
      norm_num
      ring
    have hl' : (2 : ℚ) ^ (s + 4 + 52) ≤ 16 * q := by
      rw [hsixteen]
      gcongr
    have hu' : 16 * q < (2 : ℚ) ^ (s + 4 + 53) := by
      rw [hsixteen]
      gcongr
    rw [ofValue_normal false (by omega) hl' hu', hsame]
  set M := roundEven (q * 2 ^ (-s))
  rw [hq, hnext]
  by_cases hlt : (s + 1074).toNat * binade + M < magnitudes
  · have hε : 2 * (d : ℚ) < 2 ^ (s + 4) := by
      calc 2 * (d : ℚ) < 2 ^ (5 : ℤ) := by
            norm_num
            have : (d : ℚ) < 16 := by exact_mod_cast hd
            linarith
        _ ≤ 2 ^ (s + 4) := zpow_le_zpow_right₀ (by norm_num) (by omega)
    have hvalue : 16 * (M * (2 : ℚ) ^ s) = M * 2 ^ (s + 4) := by
      have := hsixteen 0
      rw [add_zero, add_zero] at this
      rw [this]
      ring
    rw [ofCode, dif_pos hlt, push_finite, ratio_code (by omega) hlow hup, hvalue,
      ofValue_add false (by omega) hlow hup (by positivity) hε]
  · have hpast : magnitudes ≤ (s + 4 + 1074).toNat * binade + M := by
      have := Nat.mul_le_mul_right binade (show (s + 1074).toNat ≤ (s + 4 + 1074).toNat by omega)
      omega
    rw [ofCode_past false (Nat.le_of_not_lt hlt), ofCode_past false hpast]
    rfl

theorem push_kept (n : ℕ) {d : ℕ} (hd : d < 16) :
    push (ofValue false (kept n)) d = ofValue false (kept (16 * n + d)) := by
  rcases Nat.lt_or_ge n (2 ^ 53) with hlt | hge
  · obtain ⟨code, hcode, hvalue⟩ := ofValue_exact false hlt
    rw [kept_of_lt (by omega), kept_of_lt (by omega), hcode, push_finite, hvalue]
    push_cast
    rfl
  · have hne : n ≠ 0 := by omega
    have hlog : 53 ≤ n.log2 := (Nat.le_log2 hne).mpr hge
    have hkept := kept_ne_zero hne
    obtain ⟨hl, hu⟩ := natural_place hkept
    rw [push_round (by rw [log2_kept hne]; omega) hl hu hd, kept_add hge hd]
    push_cast
    rfl

/-! ## What is lost -/

/-- What is kept lies half-way between two magnitudes, the lower of which is even, so that the digits that
are lost would have decided for the upper one. -/
def LostTie (n : ℕ) : Prop := kept n ≠ n ∧ kept n % 2 ^ (n.log2 - 51) = 2 ^ (n.log2 - 53)

instance (n : ℕ) : Decidable (LostTie n) := inferInstanceAs (Decidable (_ ∧ _))

/-- What is less than a unit does not change how multiples of it compare. -/
theorem add_mul_lt_iff {B b w t : ℕ} (hb : b < B) : b + B * w < B * t ↔ w < t := by
  constructor
  · intro h
    exact Nat.lt_of_mul_lt_mul_left (Nat.lt_of_le_of_lt (Nat.le_add_left _ b) h)
  · intro h
    calc b + B * w < B + B * w := Nat.add_lt_add_right hb _
      _ = B * (w + 1) := by ring
      _ ≤ B * t := Nat.mul_le_mul_left B h

theorem add_mul_eq_iff {B b w t : ℕ} (hb : b < B) : b + B * w = B * t ↔ b = 0 ∧ w = t := by
  constructor
  · intro h
    have hle : w ≤ t := Nat.le_of_mul_le_mul_left (h ▸ Nat.le_add_left _ b) (by omega)
    have hge : ¬ w < t := fun hw => ((add_mul_lt_iff hb).mpr hw).ne h
    have hw : w = t := by omega
    rw [hw] at h
    exact ⟨by omega, hw⟩
  · rintro ⟨h0, h1⟩
    rw [h0, h1, Nat.zero_add]

/-- The significand without the digits that are lost is the rounded one, or one less in a lost tie. -/
theorem roundEven_kept {n : ℕ} (hn : 2 ^ 53 ≤ n) :
    roundEven (n * 2 ^ (-((n.log2 - 52 : ℕ) : ℤ))) =
      roundEven (kept n * 2 ^ (-((n.log2 - 52 : ℕ) : ℤ))) + if LostTie n then 1 else 0 := by
  have hlog : 53 ≤ n.log2 := (Nat.le_log2 (by omega)).mpr hn
  set u := n.log2 - 52 with hu
  -- `B` is the unit of the last digit kept, and half a unit of the last bit is `t` times that
  set B := 16 ^ lost n with hB
  have hBpos : 0 < B := by positivity
  set t := 2 ^ (u - 1 - 4 * lost n) with ht
  have htpos : 0 < t := Nat.two_pow_pos _
  have hhalf : 2 ^ (u - 1) = B * t := by
    rw [hB, ht, show (16 : ℕ) = 2 ^ 4 by norm_num, ← pow_mul, ← pow_add]
    congr 1
    rw [lost]
    omega
  have hunit : 2 ^ u = B * (2 * t) := by
    rw [mul_left_comm, ← hhalf, ← pow_succ', Nat.sub_add_cancel (by omega)]
  set a := n / B with ha
  set b := n % B with hb
  have hkept : kept n = B * a := Nat.mul_comm _ _
  have hn : n = B * a + b := (Nat.div_add_mod n B).symm
  -- the significand before rounding, and what is left of the digits kept
  set f := a / (2 * t) with hf
  set w := a % (2 * t) with hw
  have hndiv : n / 2 ^ u = f := by rw [hunit, ← Nat.div_div_eq_div_mul]
  have hnmod : n % 2 ^ u = b + B * w := by rw [hunit, Nat.mod_mul]
  have hkdiv : kept n / 2 ^ u = f := by rw [hkept, hunit, Nat.mul_div_mul_left _ _ hBpos]
  have hkmod : kept n % 2 ^ u = B * w := by rw [hkept, hunit, Nat.mul_mod_mul_left]
  have htie : LostTie n ↔ b ≠ 0 ∧ w = t ∧ f % 2 = 0 := by
    have hmod : kept n % 2 ^ (n.log2 - 51) = B * (w + 2 * t * (f % 2)) := by
      rw [show n.log2 - 51 = u + 1 by omega, pow_succ, Nat.mod_mul, hkdiv, hkmod, hunit]
      ring
    have hkeep : kept n ≠ n ↔ b ≠ 0 := by
      rw [hkept]
      omega
    rw [LostTie, hmod, hkeep, show n.log2 - 53 = u - 1 by omega, hhalf, Nat.mul_right_inj hBpos.ne']
    rcases Nat.mod_two_eq_zero_or_one f with h0 | h1
    · simp [h0]
    · rw [h1]
      omega
  have hlt : b + B * w < B * t ↔ w < t := add_mul_lt_iff (Nat.mod_lt n hBpos)
  have heq : b + B * w = B * t ↔ b = 0 ∧ w = t := add_mul_eq_iff (Nat.mod_lt n hBpos)
  rw [roundEven_shift _ (by omega), roundEven_shift _ (by omega), hndiv, hnmod, hkdiv, hkmod, hhalf]
  simp only [htie, hlt, heq, Nat.mul_lt_mul_left hBpos, Nat.mul_right_inj hBpos.ne']
  split_ifs <;> omega

/-- Rounding what is kept of a number rounds the number, except in a lost tie of finite magnitudes. -/
theorem ofValue_kept_eq_iff (negative : Bool) (n : ℕ) :
    ofValue negative (kept n) = ofValue negative n ↔ ¬ (n.log2 < 1024 ∧ LostTie n) := by
  rcases Nat.lt_or_ge n (2 ^ 53) with hlt | hge
  · have hkept : kept n = n := kept_of_lt (by omega)
    simp [LostTie, hkept]
  · have hne : n ≠ 0 := by omega
    have hlog : 53 ≤ n.log2 := (Nat.le_log2 hne).mpr hge
    have hkept := kept_ne_zero hne
    have hplace : (n.log2 : ℤ) - 52 = ((n.log2 - 52 : ℕ) : ℤ) := by omega
    obtain ⟨hl, hu⟩ := natural_place hne
    obtain ⟨hlk, huk⟩ := natural_place hkept
    rw [log2_kept hne] at hlk huk
    have hbounds := significand_rounded hl hu
    have hbounds' := significand_rounded hlk huk
    have hround := roundEven_kept hge
    rw [ofValue_normal negative (by omega) hl hu, ofValue_normal negative (by omega) hlk huk]
    rw [hplace] at hbounds hbounds' ⊢
    set R := roundEven (n * 2 ^ (-((n.log2 - 52 : ℕ) : ℤ)))
    set R' := roundEven (kept n * 2 ^ (-((n.log2 - 52 : ℕ) : ℤ)))
    by_cases htie : LostTie n
    · rw [if_pos htie] at hround
      rw [hround, ← Nat.add_assoc, ofCode_eq_iff (Nat.lt_succ_self _)]
      simp only [htie, and_true, Nat.not_lt, binade, magnitudes]
      omega
    · rw [if_neg htie] at hround
      simp [hround, htie]

/-! ## All digits -/

theorem digits?_kept (n : ℕ) (cs : List Char) :
    digits? (ofValue false (kept n)) cs =
      (run? 16 n cs).map fun m => ofValue false (kept m) := by
  induction cs generalizing n with
  | nil => rfl
  | cons c cs ih =>
    rw [digits?, run?]
    cases hc : value? 16 c with
    | none => rfl
    | some d =>
      have hd : d < 16 := (Digit.value?_eq_some_iff.mp hc).2
      simp only
      rw [push_kept n hd]
      exact ih _

theorem zero_eq : zero false = ofValue false (kept 0) := by
  simp [kept, ofValue]

/-- Digits add up to the double nearest to what is kept of their number. -/
theorem digits?_number {cs : List Char} {n : ℕ} (h : number? 16 cs = some n) :
    digits? (zero false) cs = some (ofValue false (kept n)) := by
  rw [zero_eq, digits?_kept, Digit.run?_of_number? h]
  rfl

theorem scaleBy_zero (x : Double) : scaleBy x 0 = x := by
  cases x with
  | nan => rfl
  | infinity negative => rfl
  | finite negative code =>
    have hden := ratio_den_pos code.val
    have hvalue : ((ratio code.val).scaled 2 0).value = (ratio code.val).value := by
      rw [Ratio.scaled_value _ (by decide), zpow_zero, mul_one]
    rw [scaleBy, if_neg (by decide), if_neg (by decide),
      ofRatio_eq negative (Ratio.scaled_den_pos hden (by decide) 0), hvalue]
    by_cases h : code.val = 0
    · obtain rfl : code = ⟨0, by decide⟩ := Fin.ext h
      simp [ratio_zero, ofValue, zero]
    · exact ofValue_ratio negative code h

/-- A text without the separator is not cut. -/
theorem cutAt_none {separator : Char → Bool} {cs : List Char} (h : ∀ c ∈ cs, separator c = false) :
    cutAt separator cs = (cs, none) := by
  induction cs with
  | nil => rfl
  | cons c cs ih =>
    rw [cutAt, h c List.mem_cons_self, ih fun x hx => h x (List.mem_cons_of_mem c hx)]
    rfl

/-- Digits without a point and an exponent are read as the double nearest to what is kept of their
number. -/
theorem read?_digits {cs : List Char} {n : ℕ} (h : number? 16 cs = some n) :
    read? cs = some (ofValue false (kept n)) := by
  have hcut (separator : Char → Bool) (hs : ∀ c, separator c = true → value? 16 c = none) :
      cutAt separator cs = (cs, none) := by
    apply cutAt_none
    intro c hc
    rw [Bool.eq_false_iff]
    intro hsep
    have := Digit.isSome_of_number? h c hc
    rw [hs c hsep] at this
    cases this
  have hpower := hcut (fun c => c == 'p' || c == 'P') (by
    intro c hc
    simp only [Bool.or_eq_true, beq_iff_eq] at hc
    rcases hc with rfl | rfl
    · rfl
    · rfl)
  have hpoint := hcut (· == '.') (by
    intro c hc
    rw [beq_iff_eq] at hc
    rw [hc]
    rfl)
  have hempty : cs.isEmpty = false := by
    cases cs with
    | nil => cases h
    | cons c cs => rfl
  simp [read?, hpower, hpoint, hempty, digits?_number h, power?, scaleBy_zero]

end YamlCodec.Scalar.HexFloat
