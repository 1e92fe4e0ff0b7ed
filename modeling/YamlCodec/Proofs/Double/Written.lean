import YamlCodec.Scalar.Float
import YamlCodec.Proofs.Double.ReadBack
import YamlCodec.Proofs.Text.Numeral

/-!
# The layout of number texts

A number is written as digits with a point among them, and an exponent after them if it is far from
one. The digits, the place of the point and the exponent together denote the decimal that was to be
written.
-/

set_option autoImplicit false

namespace YamlCodec.Double
open YamlCodec.Text YamlCodec.Text.Digit

/-- Digits on both sides of a point, and an exponent if there is one. -/
structure Layout where
  whole : List Char
  fraction : List Char
  exponent : Option Int

namespace Layout

def exponentText : Option Int → List Char
  | none => []
  | some e => 'e' :: (if e < 0 then '-' else '+') :: numeral e.natAbs

def text (l : Layout) : List Char :=
  l.whole ++ '.' :: (l.fraction ++ exponentText l.exponent)

/-- The layout denotes a decimal, whose digits may have zeros added to them. -/
structure Writes (l : Layout) (d : Decimal) : Prop where
  whole_pos : 0 < l.whole.length
  whole_digits : AllDecimal l.whole
  fraction_pos : 0 < l.fraction.length
  fraction_digits : AllDecimal l.fraction
  number : ∃ zeros : Nat, run? 10 0 (l.whole ++ l.fraction) = some (d.digits * 10 ^ zeros) ∧
    l.exponent.getD 0 - l.fraction.length = d.exponent - zeros

end Layout

theorem withPoint_layout {d : Decimal} {k : Nat}
    (hk : d.exponent + (numeral d.digits).length - 1 = k) :
    ∃ l : Layout, withPoint (numeral d.digits) (k + 1) = l.text ∧ l.Writes d := by
  have hall := allDecimal_numeral d.digits
  have hpos := numeral_length_pos d.digits
  have hrun := run?_numeral d.digits
  generalize numeral d.digits = digits at *
  by_cases h : digits.length ≤ k + 1
  · refine ⟨⟨digits ++ List.replicate (k + 1 - digits.length) '0', ['0'], none⟩, ?_, ?_⟩
    · simp [withPoint, Layout.text, Layout.exponentText, List.take_of_length_le h,
        List.drop_eq_nil_of_le h]
    · refine ⟨by simp; omega, hall.append (allDecimal_zeros _), by simp, allDecimal_zeros 1,
        k + 1 - digits.length + 1, ?_, ?_⟩
      · have hzeros : digits ++ List.replicate (k + 1 - digits.length) '0' ++ ['0'] =
            digits ++ List.replicate (k + 1 - digits.length + 1) '0' := by
          rw [List.append_assoc, List.replicate_succ']
        rw [hzeros, run?_append, hrun]
        exact run?_zeros _ _
      · simp only [Option.getD_none, List.length_singleton]
        omega
  · refine ⟨⟨digits.take (k + 1), digits.drop (k + 1), none⟩, ?_, ?_⟩
    · have hne : (digits.drop (k + 1)).isEmpty = false := by
        rw [List.isEmpty_eq_false_iff, ← List.length_pos_iff, List.length_drop]
        omega
      have hno : k + 1 - digits.length = 0 := by omega
      simp [withPoint, Layout.text, Layout.exponentText, hne, hno]
    · refine ⟨by simp; omega, hall.take _, by simp; omega, hall.drop _, 0, ?_, ?_⟩
      · simpa using hrun
      · simp only [Option.getD_none, List.length_drop]
        omega

theorem positional_layout {d : Decimal} {place : Int}
    (hp : d.exponent + (numeral d.digits).length - 1 = place) :
    ∃ l : Layout, positional (numeral d.digits) place = l.text ∧ l.Writes d := by
  cases place with
  | ofNat k => exact withPoint_layout hp
  | negSucc k =>
    have hall := allDecimal_numeral d.digits
    have hpos := numeral_length_pos d.digits
    have hrun := run?_numeral d.digits
    generalize numeral d.digits = digits at *
    refine ⟨⟨['0'], List.replicate k '0' ++ digits, none⟩, ?_, ?_⟩
    · simp [positional, Layout.text, Layout.exponentText]
    · refine ⟨by simp, allDecimal_zeros 1, by simp; omega, (allDecimal_zeros k).append hall, 0,
        ?_, ?_⟩
      · have hzeros : ['0'] ++ (List.replicate k '0' ++ digits) =
            List.replicate (k + 1) '0' ++ digits := by
          rw [List.replicate_succ, List.singleton_append, List.cons_append]
        rw [hzeros, run?_append, run?_zeros]
        simpa using hrun
      · simp only [Option.getD_none, List.length_append, List.length_replicate]
        omega

/-- A text with a point is left as it is. -/
theorem pointed_of_mem {cs : List Char} (h : '.' ∈ cs) : Scalar.Float.pointed cs = cs := by
  rw [Scalar.Float.pointed, if_pos (List.contains_iff_mem.mpr h)]

theorem scientific_layout {d : Decimal} {place : Int}
    (hp : d.exponent + (numeral d.digits).length - 1 = place) :
    ∃ l : Layout, Scalar.Float.pointed (scientific (numeral d.digits) place) = l.text ∧
      l.Writes d := by
  have hall := allDecimal_numeral d.digits
  have hrun := run?_numeral d.digits
  generalize hdigits : numeral d.digits = digits at *
  match digits with
  | [] =>
    have := numeral_length_pos d.digits
    simp [hdigits] at this
  | [c] =>
    refine ⟨⟨[c], ['0'], some place⟩, ?_, ?_⟩
    · have hc : IsDecimal c := hall c List.mem_cons_self
      have hpoint : ¬ '.' ∈ scientific [c] place := by
        have hexp : ¬ '.' ∈ numeral place.natAbs := fun h =>
          absurd (allDecimal_numeral _ _ h) (by decide)
        have hc : ¬ '.' = c := by
          rintro rfl
          exact absurd hc (by decide)
        have hsign : ¬ '.' = if place < 0 then '-' else '+' := by
          split <;> decide
        simp [scientific, hexp, hc, hsign]
      have he : (c == 'e') = false := by
        rw [beq_eq_false_iff_ne]
        rintro rfl
        exact absurd hc (by decide)
      rw [Scalar.Float.pointed, if_neg (by simpa using hpoint)]
      simp [scientific, Scalar.HexFloat.cutAt, he, Layout.text, Layout.exponentText]
    · refine ⟨by simp, hall, by simp, allDecimal_zeros 1, 1, ?_, ?_⟩
      · rw [run?_append, hrun]
        exact run?_zeros _ 1
      · simp only [Option.getD_some, List.length_singleton] at *
        omega
  | c :: c' :: cs =>
    refine ⟨⟨[c], c' :: cs, some place⟩, ?_, ?_⟩
    · have htext : scientific (c :: c' :: cs) place = Layout.text ⟨[c], c' :: cs, some place⟩ := by
        simp [scientific, Layout.text, Layout.exponentText]
      rw [pointed_of_mem (by simp [htext, Layout.text]), htext]
    · refine ⟨by simp, hall.take 1, by simp, hall.drop 1, 0, ?_, ?_⟩
      · simpa using hrun
      · simp only [Option.getD_some, List.length_cons] at *
        omega

/-- A decimal is written with a point, in one layout or the other. -/
theorem text_layout (d : Decimal) (w : Window) :
    ∃ l : Layout, Scalar.Float.pointed (d.text w) = l.text ∧ l.Writes d := by
  unfold Decimal.text
  simp only
  split
  · obtain ⟨l, hl, hw⟩ := positional_layout (d := d) rfl
    rw [hl]
    exact ⟨l, pointed_of_mem (by simp [Layout.text]), hw⟩
  · exact scientific_layout rfl

namespace Layout

theorem exponent?_text (e : Option Int) :
    Scalar.Float.exponent? (exponentText e) = some (e.getD 0) := by
  cases e with
  | none => rfl
  | some e =>
    have hn : number? 10 (numeral e.natAbs) = some e.natAbs :=
      number?_of_run (numeral_length_pos _) (run?_numeral _)
    by_cases h : e < 0
    · simp only [exponentText, if_pos h, Scalar.Float.exponent?, Sign.split, hn]
      change some (-(e.natAbs : Int)) = some e
      rw [show -(e.natAbs : Int) = e by omega]
    · simp only [exponentText, if_neg h, Scalar.Float.exponent?, Sign.split, hn]
      change some (e.natAbs : Int) = some e
      rw [show (e.natAbs : Int) = e by omega]

/-- Reading a layout gives the number nearest to the decimal it denotes. -/
theorem decimal?_text {l : Layout} {d : Decimal} (hw : l.Writes d) (negative : Bool) :
    ∃ digits exponent, Scalar.Float.decimal? negative l.text =
        some (ofDecimal negative digits exponent) ∧
      (digits : ℚ) * 10 ^ exponent = d.digits * 10 ^ d.exponent := by
  obtain ⟨zeros, hrun, hexp⟩ := hw.number
  have hwhole : span 10 l.text = (l.whole, '.' :: (l.fraction ++ exponentText l.exponent)) := by
    refine span_append hw.whole_digits ?_
    rintro c ⟨⟩
    decide
  have hfraction : span 10 (l.fraction ++ exponentText l.exponent) =
      (l.fraction, exponentText l.exponent) := by
    refine span_append hw.fraction_digits fun c hc => ?_
    cases he : l.exponent with
    | none => simp [he, exponentText] at hc
    | some e =>
      obtain rfl : 'e' = c := by simpa [he, exponentText] using hc
      decide
  have hnumber : number? 10 (l.whole ++ l.fraction) = some (d.digits * 10 ^ zeros) := by
    refine number?_of_run ?_ hrun
    have := hw.whole_pos
    simp
    omega
  refine ⟨d.digits * 10 ^ zeros, l.exponent.getD 0 - l.fraction.length, ?_, ?_⟩
  · simp only [Scalar.Float.decimal?, hwhole, hfraction, hnumber, exponent?_text]
  · rw [hexp, zpow_sub₀ (by norm_num), zpow_natCast]
    push_cast
    field_simp

end Layout
end YamlCodec.Double
