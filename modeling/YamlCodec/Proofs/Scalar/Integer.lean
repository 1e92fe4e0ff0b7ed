import Mathlib
import YamlCodec.Proofs.Text.Numeral
import YamlCodec.Scalar.Integer

/-!
# What an integer literal denotes

The grammar of integer literals with the integers they denote, apart from how they are read: signs,
prefixes, and digits whose number is that of their values in the base. A literal is read as what it
denotes if a signed 64-bit integer holds it, and is refused else. Digits are added up in 64 bits from the
first one on; since the sum never falls again, what is refused on the way is too large in the end.
-/

set_option autoImplicit false

namespace YamlCodec

namespace Text.Digit

/-- The character is the digit of this value, in either case. -/
def IsDigit (c : Char) (d : Nat) : Prop :=
  "0123456789abcdef".toList[d]? = some c ∨ "0123456789ABCDEF".toList[d]? = some c

instance (c : Char) (d : Nat) : Decidable (IsDigit c d) := inferInstanceAs (Decidable (_ ∨ _))

/-- At least one digit of the base, and the number that they write, the last digit the lowest. -/
def Writes (base : Nat) (cs : List Char) (n : Nat) : Prop :=
  ∃ ds : List Nat, ds ≠ [] ∧ cs.Forall₂ (fun c d => IsDigit c d ∧ d < base) ds ∧
    n = Nat.ofDigits base ds.reverse

theorem hexValue?_eq_some_iff {c : Char} {d : Nat} : hexValue? c = some d ↔ IsDigit c d := by
  constructor
  · intro h
    unfold hexValue? at h
    have hself : Char.ofNat c.toNat = c := Char.ofNat_toNat c
    split at h
    · rename_i hc
      have hl : 48 ≤ c.toNat := hc.1
      have hu : c.toNat ≤ 57 := hc.2
      obtain rfl := Option.some.inj h
      have hall : ∀ k < 10, IsDigit (Char.ofNat (48 + k)) k := by decide
      have := hall (c.toNat - 48) (by omega)
      rwa [Nat.add_sub_cancel' hl, hself] at this
    split at h
    · rename_i hc
      have hl : 97 ≤ c.toNat := hc.1
      have hu : c.toNat ≤ 102 := hc.2
      obtain rfl := Option.some.inj h
      have hall : ∀ k < 6, IsDigit (Char.ofNat (97 + k)) (10 + k) := by decide
      have := hall (c.toNat - 97) (by omega)
      rwa [Nat.add_sub_cancel' hl, hself, show 10 + (c.toNat - 97) = c.toNat - 87 by omega] at this
    split at h
    · rename_i hc
      have hl : 65 ≤ c.toNat := hc.1
      have hu : c.toNat ≤ 70 := hc.2
      obtain rfl := Option.some.inj h
      have hall : ∀ k < 6, IsDigit (Char.ofNat (65 + k)) (10 + k) := by decide
      have := hall (c.toNat - 65) (by omega)
      rwa [Nat.add_sub_cancel' hl, hself, show 10 + (c.toNat - 65) = c.toNat - 55 by omega] at this
    · simp at h
  · have hlower : ∀ p ∈ "0123456789abcdef".toList.zipIdx, hexValue? p.1 = some p.2 := by decide
    have hupper : ∀ p ∈ "0123456789ABCDEF".toList.zipIdx, hexValue? p.1 = some p.2 := by decide
    rintro (h | h)
    · exact hlower (c, d) (List.mk_mem_zipIdx_iff_getElem?.mpr h)
    · exact hupper (c, d) (List.mk_mem_zipIdx_iff_getElem?.mpr h)

section
variable {base : Nat}

theorem value?_eq_some_iff {c : Char} {d : Nat} :
    value? base c = some d ↔ IsDigit c d ∧ d < base := by
  rw [← hexValue?_eq_some_iff, value?]
  split
  · rename_i k hk
    rw [hk, Option.ite_none_right_eq_some]
    constructor
    · rintro ⟨hlt, heq⟩
      exact ⟨heq, Option.some.inj heq ▸ hlt⟩
    · rintro ⟨heq, hlt⟩
      exact ⟨Option.some.inj heq ▸ hlt, heq⟩
  · rename_i hnone
    simp [hnone]

/-- A run of digits goes on from a number as if its digits stood before it. -/
theorem run?_eq_some_iff {n m : Nat} {cs : List Char} :
    run? base n cs = some m ↔ ∃ ds : List Nat,
      cs.Forall₂ (fun c d => IsDigit c d ∧ d < base) ds ∧
      m = base ^ ds.length * n + Nat.ofDigits base ds.reverse := by
  induction cs generalizing n with
  | nil =>
    simp only [run?, Option.some.injEq, List.forall₂_nil_left_iff]
    constructor
    · rintro rfl
      exact ⟨[], rfl, by simp⟩
    · rintro ⟨_, rfl, rfl⟩
      simp
  | cons c cs ih =>
    have hstep (d : Nat) (ds : List Nat) :
        base ^ ds.length * (base * n + d) + Nat.ofDigits base ds.reverse =
          base ^ (d :: ds).length * n + Nat.ofDigits base (d :: ds).reverse := by
      rw [List.reverse_cons, Nat.ofDigits_append, Nat.ofDigits_singleton, List.length_reverse,
        List.length_cons]
      ring
    rw [run?]
    constructor
    · intro h
      split at h
      · rename_i d hd
        obtain ⟨ds, hds, rfl⟩ := ih.mp h
        exact ⟨d :: ds, .cons (value?_eq_some_iff.mp hd) hds, hstep d ds⟩
      · simp at h
    · rintro ⟨_, hds, rfl⟩
      obtain _ | @⟨_, d, _, ds, hd, hds⟩ := hds
      rw [value?_eq_some_iff.mpr hd]
      exact ih.mpr ⟨ds, hds, (hstep d ds).symm⟩

theorem writes_iff {cs : List Char} {n : Nat} : Writes base cs n ↔ number? base cs = some n := by
  cases cs with
  | nil =>
    simp only [Writes, List.forall₂_nil_left_iff, number?, reduceCtorEq, iff_false]
    rintro ⟨ds, hne, rfl, -⟩
    exact hne rfl
  | cons c cs =>
    simp only [number?, run?_eq_some_iff, Nat.mul_zero, Nat.zero_add]
    constructor
    · rintro ⟨ds, -, hds, rfl⟩
      exact ⟨ds, hds, rfl⟩
    · rintro ⟨ds, hds, rfl⟩
      refine ⟨ds, ?_, hds, rfl⟩
      rintro rfl
      exact nomatch hds

/-- The first character of digits is one. -/
theorem Writes.head {c : Char} {cs : List Char} {n : Nat} (h : Writes base (c :: cs) n) :
    ∃ d, IsDigit c d ∧ d < base := by
  obtain ⟨_, -, hds, -⟩ := h
  obtain _ | @⟨_, d, _, ds, hd, -⟩ := hds
  exact ⟨d, hd⟩

theorem Writes.ne_nil {cs : List Char} {n : Nat} (h : Writes base cs n) : cs ≠ [] := by
  rintro rfl
  obtain ⟨_, hne, hds, -⟩ := h
  exact hne (List.forall₂_nil_left_iff.mp hds)

/-- A zero behind the digits multiplies their number by the base. -/
theorem Writes.concat_zero {cs : List Char} {n : Nat} (hbase : 0 < base) (h : Writes base cs n) :
    Writes base (cs ++ ['0']) (base * n) := by
  have hzero : value? base '0' = some 0 := value?_eq_some_iff.mpr ⟨by decide, hbase⟩
  have hrun := run?_of_number? (writes_iff.mp h)
  refine writes_iff.mpr (number?_of_run (by simp) ?_)
  rw [run?_append, hrun]
  simp [run?, hzero]

/-- A zero before the other digits does not count. -/
theorem Writes.zero_cons {cs : List Char} {n : Nat} (h : Writes base cs n) :
    Writes base ('0' :: cs) n := by
  obtain ⟨c, rest, rfl⟩ := List.exists_cons_of_ne_nil h.ne_nil
  obtain ⟨d, -, hd⟩ := h.head
  obtain ⟨ds, -, hds, rfl⟩ := h
  refine ⟨0 :: ds, by simp, .cons ⟨by decide, by omega⟩ hds, ?_⟩
  simp [Nat.ofDigits_append]

end
end Text.Digit

namespace Scalar.Integer
open Text Text.Digit

/-- What the text of a literal without a sign denotes. -/
inductive Unsigned : List Char → Nat → Prop
  | hexadecimal {x : Char} {cs : List Char} {n : Nat} :
      x ∈ ['x', 'X'] → Writes 16 cs n → Unsigned ('0' :: x :: cs) n
  | octal {cs : List Char} {n : Nat} : Writes 8 cs n → Unsigned ('0' :: cs) n
  | zero : Unsigned ['0'] 0
  | decimal {c : Char} {cs : List Char} {n : Nat} :
      c ≠ '0' → Writes 10 (c :: cs) n → Unsigned (c :: cs) n

/-- What the text of a literal denotes. -/
inductive Denotes : List Char → Int → Prop
  | bare {cs : List Char} {n : Nat} : Unsigned cs n → Denotes cs n
  | plus {cs : List Char} {n : Nat} : Unsigned cs n → Denotes ('+' :: cs) n
  | minus {cs : List Char} {n : Nat} : Unsigned cs n → Denotes ('-' :: cs) (-n)

/-! ## The digits -/

section
variable {b : Nat} (hb : 0 < b)
include hb

/-- Adding up in 64 bits gives up only on what is too large in the end. -/
theorem accumulate?_eq_some_iff {n m : Nat} {cs : List Char} (hn : n < wordLimit) :
    accumulate? b n cs = some m ↔ run? b n cs = some m ∧ m < wordLimit := by
  induction cs generalizing n with
  | nil =>
    simp only [accumulate?, run?, Option.some.injEq]
    constructor
    · rintro rfl
      exact ⟨rfl, hn⟩
    · exact And.left
  | cons c cs ih =>
    rw [accumulate?, run?]
    cases hc : value? b c with
    | none => simp
    | some d =>
      simp only
      split
      · rename_i hlt
        exact ih hlt
      · rename_i hge
        have hover : ¬ (run? b (b * n + d) cs = some m ∧ m < wordLimit) := fun h =>
          hge ((le_of_run? hb h.1).trans_lt h.2)
        simp [hover]

theorem magnitude?_eq_some_iff {cs : List Char} {n : Nat} :
    magnitude? b cs = some n ↔ Writes b cs n ∧ n < wordLimit := by
  rw [writes_iff]
  cases cs with
  | nil => simp [magnitude?, number?]
  | cons c cs => exact accumulate?_eq_some_iff hb (by decide)

theorem magnitude?_eq_none_iff {cs : List Char} {n : Nat} (h : Writes b cs n) :
    magnitude? b cs = none ↔ wordLimit ≤ n := by
  constructor
  · intro hnone
    by_contra hlt
    exact nomatch hnone.symm.trans ((magnitude?_eq_some_iff hb).mpr ⟨h, Nat.lt_of_not_le hlt⟩)
  · intro hle
    by_contra hsome
    obtain ⟨m, hm⟩ := Option.ne_none_iff_exists'.mp hsome
    obtain ⟨hm, hlt⟩ := (magnitude?_eq_some_iff hb).mp hm
    obtain rfl : m = n := Option.some.inj ((writes_iff.mp hm).symm.trans (writes_iff.mp h))
    omega

end

/-! ## The sign -/

theorem signed?_eq_some_iff {negative : Bool} {n : Nat} {i : Int64} :
    signed? negative n = some i ↔ i.toInt = if negative then -(n : Int) else n := by
  have hl : -2 ^ 63 ≤ i.toInt := i.le_toInt
  have hu : i.toInt < 2 ^ 63 := i.toInt_lt
  have hread (z : Int) (hlo : -2 ^ 63 ≤ z) (hhi : z < 2 ^ 63) : Int64.ofInt z = i ↔ i.toInt = z := by
    constructor
    · rintro rfl
      exact Int64.toInt_ofInt_of_le hlo hhi
    · rintro rfl
      exact Int64.ofInt_toInt i
  unfold signed?
  cases negative with
  | true =>
    simp only [if_true]
    split
    · rename_i hle
      simp only [signedLimit] at hle
      rw [Option.some.injEq]
      exact hread _ (by omega) (by omega)
    · rename_i hgt
      simp only [signedLimit] at hgt
      simp only [reduceCtorEq, false_iff]
      omega
  | false =>
    simp only [Bool.false_eq_true, if_false]
    split
    · rename_i hlt
      simp only [signedLimit] at hlt
      rw [Option.some.injEq]
      exact hread _ (by omega) (by omega)
    · rename_i hge
      simp only [signedLimit] at hge
      simp only [reduceCtorEq, false_iff]
      omega

/-- A magnitude that a signed 64-bit integer holds after its sign has been applied is in the range of
the sum. -/
theorem signed_magnitude_iff {b : Nat} (hb : 0 < b) {negative : Bool} {cs : List Char} {i : Int64} :
    (magnitude? b cs).bind (signed? negative) = some i ↔
      ∃ n : Nat, Writes b cs n ∧ i.toInt = if negative then -(n : Int) else n := by
  have hl : -2 ^ 63 ≤ i.toInt := i.le_toInt
  have hu : i.toInt < 2 ^ 63 := i.toInt_lt
  simp only [Option.bind_eq_some_iff, magnitude?_eq_some_iff hb, signed?_eq_some_iff]
  constructor
  · rintro ⟨n, ⟨hn, -⟩, hi⟩
    exact ⟨n, hn, hi⟩
  · rintro ⟨n, hn, hi⟩
    refine ⟨n, ⟨hn, ?_⟩, hi⟩
    simp only [wordLimit]
    split at hi <;> omega

/-! ## The prefix -/

theorem base_pos (cs : List Char) : 0 < (base cs).1 := by
  unfold base
  split <;> exact Nat.zero_lt_succ _

theorem not_isDigit {c : Char} (hc : hexValue? c = none) (d : Nat) : ¬ IsDigit c d := fun h =>
  nomatch hc.symm.trans (hexValue?_eq_some_iff.mpr h)

theorem unsigned_iff {cs : List Char} {n : Nat} :
    Unsigned cs n ↔ Writes (base cs).1 (base cs).2 n := by
  have hnot {b : Nat} {c : Char} {cs : List Char} (hc : hexValue? c = none) (h : Writes b (c :: cs) n) :
      False := by
    obtain ⟨d, hd, -⟩ := h.head
    exact not_isDigit hc d hd
  unfold base
  split
  · constructor
    · rintro (⟨-, h⟩ | h | _ | ⟨hne, -⟩)
      · exact h
      · exact (hnot (by decide) h).elim
      · exact absurd rfl hne
    · exact .hexadecimal (by simp)
  · constructor
    · rintro (⟨-, h⟩ | h | _ | ⟨hne, -⟩)
      · exact h
      · exact (hnot (by decide) h).elim
      · exact absurd rfl hne
    · exact .hexadecimal (by simp)
  · rename_i hx hX
    constructor
    · rintro (⟨hmem, h⟩ | h | _ | ⟨hne, -⟩)
      · simp only [List.mem_cons, List.not_mem_nil, or_false] at hmem
        rcases hmem with rfl | rfl
        · exact (hx rfl).elim
        · exact (hX rfl).elim
      · exact h
      · exact absurd rfl hne
    · exact .octal
  · rename_i h8
    constructor
    · rintro (⟨-, h⟩ | h | _ | ⟨-, h⟩)
      · exact absurd rfl (h8 _ _)
      · obtain ⟨c, cs, rfl⟩ := List.exists_cons_of_ne_nil h.ne_nil
        exact absurd rfl (h8 _ _)
      · exact writes_iff.mpr rfl
      · exact h
    · intro h
      obtain ⟨c, cs, rfl⟩ := List.exists_cons_of_ne_nil h.ne_nil
      by_cases hc : c = '0'
      · subst hc
        cases cs with
        | nil =>
          obtain rfl : 0 = n := Option.some.inj (writes_iff.mp h)
          exact .zero
        | cons c cs => exact absurd rfl (h8 _ _)
      · exact .decimal hc h

theorem Unsigned.head {c : Char} {cs : List Char} {n : Nat} (h : Unsigned (c :: cs) n) :
    (hexValue? c).isSome := by
  obtain - | - | - | ⟨-, h⟩ := h
  · rfl
  · rfl
  · rfl
  · obtain ⟨d, hd, -⟩ := h.head
    rw [hexValue?_eq_some_iff.mpr hd]
    rfl

theorem denotes_iff {cs : List Char} {z : Int} :
    Denotes cs z ↔ ∃ n, Unsigned (Sign.split cs).2 n ∧
      z = if (Sign.split cs).1 then -(n : Int) else n := by
  unfold Sign.split
  split
  · constructor
    · rintro (h | h)
      · exact nomatch h.head
      · exact ⟨_, h, rfl⟩
    · rintro ⟨n, h, rfl⟩
      exact .plus h
  · constructor
    · rintro (h | _ | h)
      · exact nomatch h.head
      · exact ⟨_, h, rfl⟩
    · rintro ⟨n, h, rfl⟩
      exact .minus h
  · rename_i hplus hminus
    constructor
    · rintro (h | h | h)
      · exact ⟨_, h, rfl⟩
      · exact absurd rfl (hplus _)
      · exact absurd rfl (hminus _)
    · rintro ⟨n, h, rfl⟩
      exact .bare h

theorem read?_eq_some_iff {cs : List Char} {i : Int64} : read? cs = some i ↔ Denotes cs i.toInt := by
  rw [denotes_iff, read?]
  simp only [unsigned_iff]
  exact signed_magnitude_iff (base_pos _)

theorem octal?_eq_some_iff {cs : List Char} {i : Int64} :
    octal? cs = some i ↔ ∃ o ∈ ['o', 'O'], ∃ ds n, cs = '0' :: o :: ds ∧ Writes 8 ds n ∧ i.toInt = n := by
  unfold octal?
  split
  · rw [signed_magnitude_iff (by decide)]
    constructor
    · rintro ⟨n, hn, hi⟩
      exact ⟨'o', by simp, _, n, rfl, hn, hi⟩
    · rintro ⟨o, ho, ds, n, heq, hn, hi⟩
      cases heq
      exact ⟨n, hn, hi⟩
  · rw [signed_magnitude_iff (by decide)]
    constructor
    · rintro ⟨n, hn, hi⟩
      exact ⟨'O', by simp, _, n, rfl, hn, hi⟩
    · rintro ⟨o, ho, ds, n, heq, hn, hi⟩
      cases heq
      exact ⟨n, hn, hi⟩
  · rename_i ho hO
    simp only [reduceCtorEq, List.mem_cons, List.not_mem_nil, or_false, false_iff]
    rintro ⟨o, rfl | rfl, ds, n, rfl, -⟩
    · exact ho _ rfl
    · exact hO _ rfl

/-- An integer literal is read as what it denotes, and is refused exactly if it denotes nothing that a
signed 64-bit integer holds; and so are octal digits after `0o`. The sum of digits, which is kept in 64
bits, is given up exactly if the number that all the digits write does not fit them. -/
theorem reading_is_denotation (cs : List Char) :
    (∀ i : Int64, read? cs = some i ↔ Denotes cs i.toInt) ∧
    (read? cs = none ↔ ∀ z, Denotes cs z → z < -2 ^ 63 ∨ 2 ^ 63 ≤ z) ∧
    (∀ i : Int64, octal? cs = some i ↔
      ∃ o ∈ ['o', 'O'], ∃ ds n, cs = '0' :: o :: ds ∧ Writes 8 ds n ∧ i.toInt = n) ∧
    (octal? cs = none ↔
      ∀ o ∈ ['o', 'O'], ∀ ds n, cs = '0' :: o :: ds → Writes 8 ds n → 2 ^ 63 ≤ n) ∧
    ∀ b ∈ [8, 10, 16], ∀ n, Writes b cs n →
      (magnitude? b cs = if n < 2 ^ 64 then some n else none) := by
  have held {z : Int} (hlo : -2 ^ 63 ≤ z) (hhi : z < 2 ^ 63) : ∃ i : Int64, i.toInt = z :=
    ⟨.ofInt z, Int64.toInt_ofInt_of_le hlo hhi⟩
  refine ⟨fun i => read?_eq_some_iff, ⟨fun hnone z hz => ?_, fun hall => ?_⟩,
    fun i => octal?_eq_some_iff, ⟨fun hnone o ho ds n hcs hn => ?_, fun hall => ?_⟩,
    fun b hmem n hn => ?_⟩
  · by_contra hin
    obtain ⟨i, rfl⟩ := held (z := z) (by omega) (by omega)
    exact nomatch hnone.symm.trans (read?_eq_some_iff.mpr hz)
  · by_contra hsome
    obtain ⟨i, hi⟩ := Option.ne_none_iff_exists'.mp hsome
    have := hall _ (read?_eq_some_iff.mp hi)
    have := i.le_toInt
    have := i.toInt_lt
    omega
  · by_contra hlt
    obtain ⟨i, hi⟩ := held (z := n) (by omega) (by omega)
    exact nomatch hnone.symm.trans (octal?_eq_some_iff.mpr ⟨o, ho, ds, n, hcs, hn, hi⟩)
  · by_contra hsome
    obtain ⟨i, hi⟩ := Option.ne_none_iff_exists'.mp hsome
    obtain ⟨o, ho, ds, n, hcs, hn, heq⟩ := octal?_eq_some_iff.mp hi
    have := hall o ho ds n hcs hn
    have := i.toInt_lt
    omega
  · have hb : 0 < b := by
      simp only [List.mem_cons, List.not_mem_nil, or_false] at hmem
      omega
    split
    · rename_i hlt
      exact (magnitude?_eq_some_iff hb).mpr ⟨hn, hlt⟩
    · rename_i hge
      exact (magnitude?_eq_none_iff hb hn).mpr (Nat.le_of_not_lt hge)

/-- The least integer has no positive counterpart, and leading zeros make a literal octal. -/
example :
    read? "-0x8000000000000000".toList = some (.ofInt (-2 ^ 63)) ∧
      read? "9223372036854775808".toList = none ∧ read? "-00000000017".toList = some (-15) := by
  decide

end Scalar.Integer
end YamlCodec
