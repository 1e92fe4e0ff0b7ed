import Mathlib
import YamlCodec.Text.Digit

/-!
# Runs of decimal digits

The number that a run of digits writes, run after run, and the numeral as the run that writes a
number back.
-/

set_option autoImplicit false

namespace YamlCodec.Text.Digit

/-- A decimal digit. -/
def IsDecimal (c : Char) : Prop := (value? 10 c).isSome

instance (c : Char) : Decidable (IsDecimal c) := inferInstanceAs (Decidable (_ = true))

/-- A text of decimal digits only. -/
def AllDecimal (cs : List Char) : Prop := ∀ c ∈ cs, IsDecimal c

theorem value?_ofValue : ∀ d < 10, value? 10 (ofValue d) = some d := by decide

theorem isDecimal_ofValue {d : Nat} (h : d < 10) : IsDecimal (ofValue d) := by
  rw [IsDecimal, value?_ofValue d h]
  rfl

theorem isDecimal_iff (c : Char) : IsDecimal c ↔ ∃ d < 10, c = ofValue d := by
  constructor
  · intro h
    unfold IsDecimal value? hexValue? at h
    split at h
    · rename_i d hd
      split at h
      · rename_i hlt
        refine ⟨d, hlt, ?_⟩
        split at hd
        · rename_i hc
          have hl : 48 ≤ c.toNat := hc.1
          have hu : c.toNat ≤ 57 := hc.2
          obtain rfl : c.toNat - 48 = d := by simpa using hd
          rw [ofValue, if_pos hlt, Nat.add_sub_cancel' hl, Char.ofNat_toNat]
        · split at hd
          · rename_i hc
            have hl : 97 ≤ c.toNat := hc.1
            have : c.toNat - 87 = d := by simpa using hd
            omega
          · split at hd
            · rename_i hc
              have hl : 65 ≤ c.toNat := hc.1
              have : c.toNat - 55 = d := by simpa using hd
              omega
            · simp at hd
      · simp at h
    · simp at h
  · rintro ⟨d, hd, rfl⟩
    exact isDecimal_ofValue hd

theorem AllDecimal.append {xs ys : List Char} (hx : AllDecimal xs) (hy : AllDecimal ys) :
    AllDecimal (xs ++ ys) := by
  intro c hc
  rcases List.mem_append.mp hc with hc | hc
  · exact hx c hc
  · exact hy c hc

theorem AllDecimal.take {cs : List Char} (h : AllDecimal cs) (k : Nat) : AllDecimal (cs.take k) :=
  fun c hc => h c (List.mem_of_mem_take hc)

theorem AllDecimal.drop {cs : List Char} (h : AllDecimal cs) (k : Nat) : AllDecimal (cs.drop k) :=
  fun c hc => h c (List.mem_of_mem_drop hc)

theorem allDecimal_zeros (k : Nat) : AllDecimal (List.replicate k '0') := by
  intro c hc
  rw [List.eq_of_mem_replicate hc]
  decide

theorem run?_append (base n : Nat) (xs ys : List Char) :
    run? base n (xs ++ ys) = (run? base n xs).bind fun m => run? base m ys := by
  induction xs generalizing n with
  | nil => rfl
  | cons c xs ih =>
    rw [List.cons_append, run?, run?]
    cases value? base c with
    | none => rfl
    | some d => exact ih _

/-- What a run of digits writes is no less than the number it goes on from. -/
theorem le_of_run? {base n m : Nat} {cs : List Char} (hb : 0 < base) (h : run? base n cs = some m) :
    n ≤ m := by
  induction cs generalizing n with
  | nil => exact Nat.le_of_eq (Option.some.inj h)
  | cons c cs ih =>
    rw [run?] at h
    cases hv : value? base c with
    | none => simp [hv] at h
    | some d =>
      rw [hv] at h
      calc n ≤ base * n := Nat.le_mul_of_pos_left n hb
        _ ≤ base * n + d := Nat.le_add_right _ d
        _ ≤ m := ih h

/-- What writes a number holds digits only. -/
theorem isSome_of_run? {base n m : Nat} {cs : List Char} (h : run? base n cs = some m) :
    ∀ c ∈ cs, (value? base c).isSome := by
  induction cs generalizing n with
  | nil => simp
  | cons c cs ih =>
    rw [run?] at h
    cases hv : value? base c with
    | none => simp [hv] at h
    | some d =>
      rw [hv] at h
      intro x hx
      rcases List.mem_cons.mp hx with rfl | hx
      · rw [hv]
        rfl
      · exact ih h x hx

theorem isSome_of_number? {base n : Nat} {cs : List Char} (h : number? base cs = some n) :
    ∀ c ∈ cs, (value? base c).isSome := by
  cases cs with
  | nil => simp
  | cons c cs => exact isSome_of_run? h

theorem run?_zeros (n k : Nat) : run? 10 n (List.replicate k '0') = some (n * 10 ^ k) := by
  induction k generalizing n with
  | zero => simp [run?]
  | succ k ih =>
    have hzero : value? 10 '0' = some 0 := by decide
    rw [List.replicate_succ, run?, hzero]
    simp only [ih]
    rw [Nat.pow_succ, Nat.add_zero, Nat.mul_comm 10 n, Nat.mul_assoc, Nat.mul_comm (10 ^ k)]

theorem run?_numeral (m : Nat) : run? 10 0 (numeral m) = some m := by
  induction m using numeral.induct with
  | case1 m h =>
    rw [numeral, if_pos h, run?, value?_ofValue m h]
    simp [run?]
  | case2 m h ih =>
    rw [numeral, if_neg h, run?_append, ih]
    simp only [Option.bind_some, run?, value?_ofValue (m % 10) (Nat.mod_lt m (by decide))]
    rw [Nat.div_add_mod]

theorem allDecimal_numeral (m : Nat) : AllDecimal (numeral m) := by
  induction m using numeral.induct with
  | case1 m h =>
    rw [numeral, if_pos h]
    intro c hc
    rw [List.mem_singleton.mp hc]
    exact isDecimal_ofValue h
  | case2 m h ih =>
    rw [numeral, if_neg h]
    refine ih.append fun c hc => ?_
    rw [List.mem_singleton.mp hc]
    exact isDecimal_ofValue (Nat.mod_lt m (by decide))

theorem numeral_length_pos (m : Nat) : 0 < (numeral m).length := by
  rw [numeral]
  split <;> simp

theorem number?_of_run {base n : Nat} {cs : List Char} (hpos : 0 < cs.length)
    (h : run? base 0 cs = some n) : number? base cs = some n := by
  cases cs with
  | nil => simp at hpos
  | cons c cs => exact h

theorem run?_of_number? {base n : Nat} {cs : List Char} (h : number? base cs = some n) :
    run? base 0 cs = some n := by
  cases cs with
  | nil => cases h
  | cons c cs => exact h

/-- The numeral of a number begins with a digit, which is zero for zero alone. -/
theorem numeral_head (m : Nat) :
    ∃ d < 10, ∃ rest, numeral m = ofValue d :: rest ∧ (d = 0 → m = 0 ∧ rest = []) := by
  induction m using numeral.induct with
  | case1 m h =>
    refine ⟨m, h, [], ?_, fun hd => ⟨hd, rfl⟩⟩
    rw [numeral, if_pos h]
  | case2 m h ih =>
    obtain ⟨d, hd, rest, hrest, hzero⟩ := ih
    refine ⟨d, hd, rest ++ [ofValue (m % 10)], ?_, fun h0 => ?_⟩
    · rw [numeral, if_neg h, hrest, List.cons_append]
    · have := (hzero h0).1
      omega

/-- What follows a run of digits does not go on with a digit. -/
theorem span_append {ds rest : List Char} (hd : AllDecimal ds)
    (hr : ∀ c ∈ rest.head?, ¬ IsDecimal c) : span 10 (ds ++ rest) = (ds, rest) := by
  induction ds with
  | nil =>
    cases rest with
    | nil => rfl
    | cons c rest =>
      have hc : ¬ (value? 10 c).isSome = true := hr c rfl
      rw [List.nil_append, span, if_neg hc]
  | cons c ds ih =>
    have hc : (value? 10 c).isSome = true := hd c List.mem_cons_self
    have ih := ih fun x hx => hd x (List.mem_cons_of_mem c hx)
    rw [List.cons_append, span, if_pos hc, ih]

end YamlCodec.Text.Digit
