import YamlCodec.Scalar.Resolve
import YamlCodec.Proofs.Double.Written
import YamlCodec.Proofs.Scalar.Integer
import YamlCodec.Proofs.Scalar.Mark

/-!
# Number texts read back

The text of a number is an optional minus before a digit, with nothing but digits, points, signs and
the letter of the exponent in it. So it is no keyword, octal or hexadecimal literal, a text with a
point is no integer, and the number it was written for is what it is read as.
-/

set_option autoImplicit false

namespace YamlCodec.Scalar
open YamlCodec.Text YamlCodec.Text.Digit

/-- A character that decimal numbers are written with. -/
def IsNumeric (c : Char) : Prop := IsDecimal c ∨ c ∈ ['.', 'e', '+', '-']

instance (c : Char) : Decidable (IsNumeric c) := inferInstanceAs (Decidable (_ ∨ _))

/-- What holds of every digit, the point, the exponent and the signs. -/
theorem IsNumeric.elim {P : Char → Prop} (hd : ∀ d < 10, P (ofValue d))
    (ho : P '.' ∧ P 'e' ∧ P '+' ∧ P '-') {c : Char} (h : IsNumeric c) : P c := by
  rcases h with h | h
  · obtain ⟨d, hlt, rfl⟩ := (isDecimal_iff c).mp h
    exact hd d hlt
  · obtain ⟨hpoint, he, hplus, hminus⟩ := ho
    simp only [List.mem_cons, List.not_mem_nil, or_false] at h
    rcases h with rfl | rfl | rfl | rfl <;> assumption

theorem isNumeric_of_decimal {cs : List Char} (h : AllDecimal cs) : ∀ c ∈ cs, IsNumeric c :=
  fun c hc => .inl (h c hc)

/-- An unsigned number text: it begins with a digit. -/
structure Numeric (cs : List Char) : Prop where
  head : ∃ c rest, cs = c :: rest ∧ IsDecimal c
  all : ∀ c ∈ cs, IsNumeric c

theorem numeric_numeral (n : Nat) : Numeric (numeral n) := by
  obtain ⟨d, hd, rest, hrest, _⟩ := numeral_head n
  exact ⟨⟨_, rest, hrest, isDecimal_ofValue hd⟩, isNumeric_of_decimal (allDecimal_numeral n)⟩

theorem numeric_layout {l : Double.Layout} {d : Double.Decimal} (h : l.Writes d) :
    Numeric l.text := by
  constructor
  · match hw : l.whole, h.whole_pos with
    | c :: rest, _ =>
      refine ⟨c, rest ++ '.' :: (l.fraction ++ Double.Layout.exponentText l.exponent), ?_, ?_⟩
      · simp [Double.Layout.text, hw]
      · exact h.whole_digits c (by simp [hw])
  · intro c hc
    simp only [Double.Layout.text, List.mem_append, List.mem_cons] at hc
    rcases hc with hc | rfl | hc | hc
    · exact .inl (h.whole_digits c hc)
    · decide
    · exact .inl (h.fraction_digits c hc)
    · cases he : l.exponent with
      | none => simp [he, Double.Layout.exponentText] at hc
      | some e =>
        simp only [he, Double.Layout.exponentText, List.mem_cons] at hc
        rcases hc with rfl | rfl | hc
        · decide
        · split <;> decide
        · exact .inl (allDecimal_numeral _ c hc)

theorem toLower_ofValue_foreign : ∀ d < 10, (ofValue d).toLower ∉ Keyword.letters := by decide

/-- No word holds a digit. -/
theorem digit_foreign {c : Char} (h : IsDecimal c) : c.toLower ∉ Keyword.letters := by
  obtain ⟨d, hd, rfl⟩ := (isDecimal_iff c).mp h
  exact toLower_ofValue_foreign d hd

/-- A text after a minus if it is negative. -/
def signed (negative : Bool) (cs : List Char) : List Char :=
  (if negative then ['-'] else []) ++ cs

section
variable {cs : List Char} (h : Numeric cs)
include h

theorem Numeric.signed_all (negative : Bool) : ∀ c ∈ signed negative cs, IsNumeric c := by
  intro c hc
  rcases List.mem_append.mp hc with hc | hc
  · cases negative with
    | false => simp at hc
    | true =>
      rw [List.mem_singleton.mp hc]
      decide
  · exact h.all c hc

theorem Numeric.split_signed (negative : Bool) : Sign.split (signed negative cs) = (negative, cs) := by
  obtain ⟨c, rest, rfl, hc⟩ := h.head
  cases negative with
  | true => rfl
  | false =>
    unfold signed Sign.split
    split
    · rename_i heq
      obtain ⟨rfl, rfl⟩ : c = '+' ∧ rest = _ := by simpa using heq
      exact absurd hc (by decide)
    · rename_i heq
      obtain ⟨rfl, rfl⟩ : c = '-' ∧ rest = _ := by simpa using heq
      exact absurd hc (by decide)
    · rfl

theorem Numeric.not_mem {c : Char} (hc : ¬ IsNumeric c) (negative : Bool) :
    c ∉ signed negative cs :=
  fun hm => hc (h.signed_all negative c hm)

/-- A number text is no word. -/
theorem Numeric.foreign (negative : Bool) :
    ∃ c ∈ signed negative cs, c.toLower ∉ Keyword.letters := by
  obtain ⟨c, rest, rfl, hc⟩ := h.head
  exact ⟨c, List.mem_append_right _ List.mem_cons_self, digit_foreign hc⟩

theorem Numeric.octal?_none (negative : Bool) : Integer.octal? (signed negative cs) = none := by
  have hl := h.not_mem (c := 'o') (by decide) negative
  have hu := h.not_mem (c := 'O') (by decide) negative
  unfold Integer.octal?
  split <;> simp_all

/-- What a number text is inferred to be lies with the integers and the floats. -/
theorem Numeric.inferred?_eq (negative : Bool) :
    inferred? (signed negative cs) =
      match Integer.read? (signed negative cs) with
      | some i => some (.integer i)
      | none => (Float.read? (signed negative cs)).map .double := by
  obtain ⟨c, hc, hforeign⟩ := h.foreign negative
  cases hread : Integer.read? (signed negative cs) with
  | some i => simp only [inferred?_foreign hc hforeign, h.octal?_none, hread]
  | none => simp only [inferred?_foreign hc hforeign, h.octal?_none, hread]

theorem Numeric.read?_eq (negative : Bool) :
    Float.read? (signed negative cs) = Float.decimal? negative cs := by
  have hsplit := h.split_signed negative
  obtain ⟨c, hc, hforeign⟩ := h.foreign false
  have hmark : marked 'x' 'X' cs = none := by
    cases hm : marked 'x' 'X' cs with
    | none => rfl
    | some ds =>
      obtain ⟨x, hx, rfl⟩ := marked_eq_some_iff.mp hm
      simp only [List.mem_cons, List.not_mem_nil, or_false] at hx
      rcases hx with rfl | rfl
      · exact absurd (h.all 'x' (by simp)) (by decide)
      · exact absurd (h.all 'X' (by simp)) (by decide)
  rw [Float.read?_unmarked (by rw [hsplit]; exact hc) hforeign (by rw [hsplit]; exact hmark), hsplit]

end

theorem accumulate?_none {base n : Nat} {cs : List Char} {c : Char} (hc : c ∈ cs)
    (hv : value? base c = none) : Integer.accumulate? base n cs = none := by
  induction cs generalizing n with
  | nil => simp at hc
  | cons x cs ih =>
    rw [Integer.accumulate?]
    rcases List.mem_cons.mp hc with rfl | hc
    · rw [hv]
    · split
      · split
        · exact ih hc
        · rfl
      · rfl

theorem ofValue_zero : ∀ d < 10, ofValue d = '0' → d = 0 := by decide

/-- The numeral of a number that 64 bits hold is a decimal literal. -/
theorem magnitude?_numeral {n : Nat} (hn : n < Integer.wordLimit) :
    Integer.magnitude? (Integer.base (numeral n)).1 (Integer.base (numeral n)).2 = some n := by
  have hwrites : Writes 10 (numeral n) n :=
    writes_iff.mpr (number?_of_run (numeral_length_pos n) (run?_numeral n))
  obtain ⟨d, hd, rest, hrest, hzero⟩ := numeral_head n
  have hbase : Integer.base (numeral n) = (10, numeral n) := by
    rw [hrest]
    by_cases h0 : d = 0
    · obtain ⟨_, rfl⟩ := hzero h0
      subst h0
      rfl
    · have hne : ofValue d ≠ '0' := fun heq => h0 (ofValue_zero d hd heq)
      unfold Integer.base
      split <;> simp_all
  rw [hbase]
  exact (Integer.magnitude?_eq_some_iff (b := 10) (by decide)).mpr ⟨hwrites, hn⟩

theorem signedNumeral_eq (i : Int) : signedNumeral i = signed (decide (i < 0)) (numeral i.natAbs) := by
  by_cases h : i < 0
  · simp [signedNumeral, signed, h]
  · simp [signedNumeral, signed, h]

theorem Integer.read?_numeral (i : Int64) : Integer.read? (signedNumeral i.toInt) = some i := by
  have hl : -2 ^ 63 ≤ i.toInt := i.le_toInt
  have hu : i.toInt < 2 ^ 63 := i.toInt_lt
  have hself : Int64.ofInt i.toInt = i := Int64.ofInt_toInt i
  have hn : i.toInt.natAbs < Integer.wordLimit := by
    simp only [wordLimit]
    omega
  rw [signedNumeral_eq, Integer.read?, (numeric_numeral _).split_signed]
  simp only
  rw [magnitude?_numeral hn, Option.bind_some, signed?]
  by_cases h : i.toInt < 0
  · rw [if_pos (by simpa using h), if_pos (by simp only [signedLimit]; omega),
      show -(i.toInt.natAbs : Int) = i.toInt by omega, hself]
  · rw [if_neg (by simpa using h), if_pos (by simp only [signedLimit]; omega),
      show (i.toInt.natAbs : Int) = i.toInt by omega, hself]

/-- A text with a point is no integer literal. -/
theorem Integer.read?_point {cs : List Char} (h : Numeric cs) (hp : '.' ∈ cs) (negative : Bool) :
    Integer.read? (signed negative cs) = none := by
  have hnone : ∀ b ≤ 16, value? b '.' = none := by decide
  have hmag : ∀ b ≤ 16, ∀ ds, '.' ∈ ds → magnitude? b ds = none := by
    intro b hb ds hds
    unfold magnitude?
    split
    · simp at hds
    · exact accumulate?_none hds (hnone b hb)
  rw [Integer.read?, h.split_signed]
  have hbase : (base cs).1 ≤ 16 ∧ '.' ∈ (base cs).2 := by
    unfold base
    split <;> simp_all
  simp only
  rw [hmag _ hbase.1 _ hbase.2]
  rfl

theorem pointed_minus (cs : List Char) : Float.pointed ('-' :: cs) = '-' :: Float.pointed cs := by
  unfold Float.pointed
  simp only [List.contains_cons, HexFloat.cutAt]
  rw [show ('.' == '-') = false by decide, show ('-' == 'e') = false by decide, Bool.false_or]
  split <;> rfl

/-- The text of a finite number is a layout of a decimal that is nearest to it. -/
theorem finite_layout (negative : Bool) (code : Fin Double.magnitudes) :
    ∃ (l : Double.Layout) (d : Double.Decimal),
      Float.text (.finite negative code) = signed negative l.text ∧ l.Writes d ∧
      ∀ (digits : ℕ) (exponent : ℤ),
        (digits : ℚ) * 10 ^ exponent = d.digits * 10 ^ d.exponent →
        Double.ofDecimal negative digits exponent = .finite negative code := by
  by_cases h : code.val = 0
  · obtain rfl : code = ⟨0, by decide⟩ := Fin.ext h
    refine ⟨⟨['0'], ['0'], none⟩, ⟨0, 0⟩, by cases negative <;> decide,
      ⟨by decide, allDecimal_zeros 1, by decide, allDecimal_zeros 1, 1, by decide, by decide⟩,
      fun digits exponent heq => ?_⟩
    rw [Double.ofDecimal_eq, heq]
    simp [Double.ofValue, Double.zero]
  · obtain ⟨l, hl, hw⟩ := Double.text_layout (Double.shortest code) Double.window
    refine ⟨l, Double.shortest code, ?_, hw, fun digits exponent heq =>
      Double.ofDecimal_shortest negative h heq⟩
    rw [Float.text, Double.finiteText, if_neg h]
    cases negative with
    | false => exact hl
    | true => exact (pointed_minus _).trans (congrArg (List.cons '-') hl)

theorem inferred?_integer (i : Int64) :
    inferred? (signedNumeral i.toInt) = some (.integer i) := by
  have hread := Integer.read?_numeral i
  rw [signedNumeral_eq] at hread ⊢
  rw [(numeric_numeral _).inferred?_eq, hread]

theorem read?_text (negative : Bool) (code : Fin Double.magnitudes) :
    Float.read? (Float.text (.finite negative code)) = some (.finite negative code) := by
  obtain ⟨l, d, htext, hw, hnearest⟩ := finite_layout negative code
  obtain ⟨digits, exponent, hdec, heq⟩ := Double.Layout.decimal?_text hw negative
  rw [htext, (numeric_layout hw).read?_eq, hdec, hnearest digits exponent heq]

theorem inferred?_double (d : Double) : inferred? (Float.text d) = some (.double d) := by
  cases d with
  | nan => rfl
  | infinity negative => cases negative <;> rfl
  | finite negative code =>
    obtain ⟨l, d, htext, hw, -⟩ := finite_layout negative code
    have hread := read?_text negative code
    have hn := numeric_layout hw
    rw [htext] at hread ⊢
    rw [hn.inferred?_eq, Integer.read?_point hn (by simp [Double.Layout.text]), hread]
    rfl

end YamlCodec.Scalar
