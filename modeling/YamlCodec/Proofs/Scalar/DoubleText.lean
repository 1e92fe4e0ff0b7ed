import YamlCodec.Proofs.Scalar.Bare
import YamlCodec.Proofs.Scalar.FloatLiteral
import YamlCodec.Writer.Step

/-!
# Texts of doubles, whatever prints them

Finite numbers are printed as digits that begin with a digit, with a point or none and an exponent or none,
and a point is put in where there is none. All that this needs of the printer is the notation and that its
text reads back: the text with a point has the same value, is no other kind of scalar and stays bare, so it
is read as the number that it was written for.
-/

set_option autoImplicit false

namespace YamlCodec.Scalar.Float
open Text
open Text.Digit (Writes writes_iff IsDecimal)

/-- A decimal literal without a sign that begins with a digit, its exponent behind a small letter. -/
inductive Printed : List Char → Prop
  | intro {c : Char} {m e : List Char} {n k : ℕ} {z : ℤ} :
      IsDecimal c → Mantissa 10 (c :: m) n k → Exponent ['e'] e z → Printed (c :: m ++ e)

/-- A text for every finite number, in this notation behind a minus if it is negative, that reads back. -/
structure Printer where
  text : Bool → Fin Double.magnitudes → List Char
  layout : ∀ negative code, ∃ cs, text negative code = signed negative cs ∧ Printed cs
  readsBack : ∀ negative code, Float.read? (text negative code) = some (.finite negative code)

/-- The text of a number, with the finite ones printed and pointed. -/
def Printer.write (p : Printer) : Double → List Char
  | .nan => ['.', 'n', 'a', 'n']
  | .infinity negative => (if negative then ['-'] else []) ++ ['.', 'i', 'n', 'f']
  | .finite negative code => pointed (p.text negative code)

/-! ## Exponents -/

section
variable {e : List Char} {z : ℤ} (h : Exponent ['e'] e z)
include h

theorem Exponent.decimal : Exponent ['e', 'E'] e z := by
  cases h with
  | absent => exact .absent
  | present hmark h => exact .present (List.mem_append_left ['E'] hmark) h

theorem Exponent.numeric : ∀ c ∈ e, IsNumeric c ∧ c ≠ '.' := by
  cases h with
  | absent => simp
  | @present mark sign ds z hmark h =>
    have hdigit : ∀ c ∈ ds, IsNumeric c ∧ c ≠ '.' := by
      intro c hc
      obtain ⟨n, hn, -⟩ := h.writes
      have hdecimal : IsDecimal c := Digit.isSome_of_number? (writes_iff.mp hn) c hc
      refine ⟨.inl hdecimal, ?_⟩
      rintro rfl
      exact absurd hdecimal (by decide)
    have hsign : ∀ c ∈ sign, IsNumeric c ∧ c ≠ '.' := by
      cases h with
      | bare => simp
      | plus => simp [IsNumeric]
      | minus => simp [IsNumeric]
    intro c hc
    rcases List.mem_cons.mp hc with rfl | hc
    · rw [List.mem_singleton.mp hmark]
      decide
    · exact (List.mem_append.mp hc).elim (hsign c) (hdigit c)

end

/-! ## The point -/

theorem point_mem_pointed (cs : List Char) : '.' ∈ pointed cs := by
  by_cases h : '.' ∈ cs
  · rwa [Double.pointed_of_mem h]
  · rw [pointed, if_neg (by simpa using h)]
    simp

/-- A point is put in just where there is none. -/
theorem pointed_eq_self_iff {cs : List Char} : pointed cs = cs ↔ '.' ∈ cs :=
  ⟨fun h => h ▸ point_mem_pointed cs, Double.pointed_of_mem⟩

theorem pointed_signed (negative : Bool) (cs : List Char) :
    pointed (signed negative cs) = signed negative (pointed cs) := by
  cases negative with
  | false => rfl
  | true => exact pointed_minus cs

/-- Behind digits the point is put in with a zero. -/
theorem pointed_whole {ds e : List Char} {n : ℕ} {z : ℤ} (hd : Writes 10 ds n) (he : Exponent ['e'] e z) :
    pointed (ds ++ e) = ds ++ '.' :: '0' :: e := by
  have hdigits := Digit.isSome_of_number? (writes_iff.mp hd)
  have hpoint : '.' ∉ ds ++ e := by
    intro h
    rcases List.mem_append.mp h with h | h
    · exact absurd (hdigits '.' h) (by decide)
    · exact (he.numeric '.' h).2 rfl
  have hletter : ∀ c ∈ ds, (c == 'e') = false := by
    intro c hc
    rw [beq_eq_false_iff_ne]
    rintro rfl
    exact absurd (hdigits 'e' hc) (by decide)
  rw [pointed, if_neg (by simpa using hpoint)]
  cases he with
  | absent => rw [List.append_nil, HexFloat.cutAt_none hletter]
  | present hmark h =>
    rw [List.mem_singleton.mp hmark, HexFloat.cutAt_append hletter rfl]

section
variable {cs : List Char} (h : Printed cs)
include h

theorem Printed.numeric : Numeric cs := by
  obtain ⟨hc, hm, he⟩ := h
  refine ⟨⟨_, _, rfl, hc⟩, ?_⟩
  intro x hx
  rcases List.mem_append.mp hx with hx | hx
  · rcases hm.all x hx with hdigit | rfl
    · exact .inl hdigit
    · decide
  · exact (he.numeric x hx).1

/-- The text with a point is of the notation too, and has the same value. -/
theorem Printed.pointed :
    Printed (pointed cs) ∧
    ∀ negative, decimal? negative (Float.pointed cs) = decimal? negative cs := by
  by_cases hpoint : '.' ∈ cs
  · rw [pointed_eq_self_iff.mpr hpoint]
    exact ⟨h, fun _ => rfl⟩
  obtain @⟨c, m, e, n, k, z, hc, hm, he⟩ := h
  generalize hds : c :: m = ds at *
  cases hm with
  | whole hd =>
    have hd' : Mantissa 10 (ds ++ '.' :: ['0']) (10 * n) 1 := .pointed (hd.concat_zero (by decide))
    have htext : Float.pointed (ds ++ e) = ds ++ '.' :: ['0'] ++ e := by
      rw [pointed_whole hd he, List.append_assoc]
      rfl
    have hvalue : ((10 * n : ℕ) : ℚ) * 10 ^ (z - (1 : ℕ)) = n * 10 ^ (z - (0 : ℕ)) := by
      rw [Nat.cast_one, zpow_sub_one₀ (by norm_num), Nat.cast_zero, sub_zero]
      push_cast
      field_simp
    rw [htext]
    constructor
    · subst hds
      exact .intro hc hd' he
    · intro negative
      rw [decimal?_literal hd' he.decimal, decimal?_literal (.whole hd) he.decimal, Double.ofDecimal_eq,
        Double.ofDecimal_eq, hvalue]
  | pointed hd => exact absurd (by simp) hpoint

theorem Printed.read?_eq (negative : Bool) :
    read? (Float.pointed (signed negative cs)) = read? (signed negative cs) := by
  obtain ⟨hprinted, hvalue⟩ := h.pointed
  rw [pointed_signed, hprinted.numeric.read?_eq, h.numeric.read?_eq, hvalue]

end

/-! ## The shortest text -/

theorem exponent_text (e : Option ℤ) : ∃ z, Exponent ['e'] (Double.Layout.exponentText e) z := by
  cases e with
  | none => exact ⟨0, .absent⟩
  | some e =>
    have hd : Writes 10 (Digit.numeral e.natAbs) e.natAbs :=
      writes_iff.mpr (Digit.number?_of_run (Digit.numeral_length_pos _) (Digit.run?_numeral _))
    rw [Double.Layout.exponentText]
    split
    · exact ⟨_, .present (List.mem_singleton_self _) (.minus hd)⟩
    · exact ⟨_, .present (List.mem_singleton_self _) (.plus hd)⟩

theorem Printed.layout {l : Double.Layout} {d : Double.Decimal} (h : l.Writes d) : Printed l.text := by
  obtain ⟨zeros, hrun, -⟩ := h.number
  have hd : Writes 10 (l.whole ++ l.fraction) (d.digits * 10 ^ zeros) :=
    writes_iff.mpr (Digit.number?_of_run (by simp [h.whole_pos]) hrun)
  obtain ⟨z, he⟩ := exponent_text l.exponent
  obtain ⟨c, rest, hwhole⟩ := List.exists_cons_of_ne_nil (List.length_pos_iff.mp h.whole_pos)
  have hc : IsDecimal c := h.whole_digits c (by simp [hwhole])
  have htext : l.text = c :: (rest ++ '.' :: l.fraction) ++ Double.Layout.exponentText l.exponent := by
    simp [Double.Layout.text, hwhole]
  rw [hwhole] at hd
  rw [htext]
  have hm : Mantissa 10 (c :: rest ++ '.' :: l.fraction) (d.digits * 10 ^ zeros) l.fraction.length :=
    .pointed hd
  exact .intro hc hm he

theorem Printed.decimal (d : Double.Decimal) (w : Double.Window) : Printed (d.text w) := by
  unfold Double.Decimal.text
  simp only
  split
  · obtain ⟨l, hl, hw⟩ := Double.positional_layout (d := d) rfl
    rw [hl]
    exact .layout hw
  · have hd : Writes 10 (Digit.numeral d.digits) d.digits :=
      writes_iff.mpr (Digit.number?_of_run (Digit.numeral_length_pos _) (Digit.run?_numeral _))
    have hall := Digit.allDecimal_numeral d.digits
    generalize d.exponent + (Digit.numeral d.digits).length - 1 = place
    obtain ⟨z, he⟩ := exponent_text (some place)
    match hdigits : Digit.numeral d.digits with
    | [] => exact absurd hdigits hd.ne_nil
    | [c] =>
      rw [hdigits] at hd hall
      exact .intro (hall c List.mem_cons_self) (.whole hd) he
    | c :: c' :: cs =>
      rw [hdigits] at hd hall
      have hm : Mantissa 10 ([c] ++ '.' :: c' :: cs) d.digits (c' :: cs).length := .pointed hd
      exact .intro (hall c List.mem_cons_self) hm he

theorem finiteText_printed (negative : Bool) (code : Fin Double.magnitudes) :
    ∃ cs, Double.finiteText negative code = signed negative cs ∧ Printed cs := by
  refine ⟨_, rfl, ?_⟩
  split
  · have hd : Writes 10 (['0'] ++ ['0']) 0 := writes_iff.mpr rfl
    have hm : Mantissa 10 ['0', '.', '0'] 0 1 := .pointed hd
    exact .intro (by decide) hm .absent
  · exact .decimal _ _

/-- The printer of the shortest decimal. -/
def Printer.shortest : Printer where
  text := Double.finiteText
  layout := finiteText_printed
  readsBack := by
    intro negative code
    obtain ⟨cs, hcs, h⟩ := finiteText_printed negative code
    have hread : read? (pointed (Double.finiteText negative code)) = _ := read?_text negative code
    rw [← hread, hcs, h.read?_eq]

theorem text_eq (d : Double) : text d = Printer.shortest.write d := by
  cases d <;> rfl

/-! ## What is read -/

section
variable (p : Printer)

/-- The text of a finite number is an unsigned number text with a point. -/
theorem Printer.exists_numeric (negative : Bool) (code : Fin Double.magnitudes) :
    ∃ cs, p.write (.finite negative code) = signed negative cs ∧ Numeric cs ∧ '.' ∈ cs := by
  obtain ⟨cs, hcs, h⟩ := p.layout negative code
  refine ⟨pointed cs, ?_, h.pointed.1.numeric, point_mem_pointed cs⟩
  rw [← pointed_signed, ← hcs]
  rfl

theorem Printer.read?_pointed (negative : Bool) (code : Fin Double.magnitudes) :
    read? (pointed (p.text negative code)) = read? (p.text negative code) := by
  obtain ⟨cs, hcs, h⟩ := p.layout negative code
  rw [hcs, h.read?_eq]

theorem Printer.isPlainSafe (d : Double) : isPlainSafe (p.write d) = true := by
  cases d with
  | nan => rfl
  | infinity negative => cases negative <;> rfl
  | finite negative code =>
    obtain ⟨cs, hcs, h, -⟩ := p.exists_numeric negative code
    rw [hcs]
    exact h.isPlainSafe negative

/-- No rule before that of special numbers and floats reads the text of a number. -/
theorem Printer.refused (d : Double) :
    Keyword.isNull (p.write d) = false ∧ Keyword.bool? (p.write d) = none ∧
      Integer.octal? (p.write d) = none ∧ Integer.read? (p.write d) = none := by
  cases d with
  | nan => exact ⟨rfl, rfl, rfl, rfl⟩
  | infinity negative => cases negative <;> exact ⟨rfl, rfl, rfl, rfl⟩
  | finite negative code =>
    obtain ⟨cs, hcs, h, hpoint⟩ := p.exists_numeric negative code
    obtain ⟨c, hc, hforeign⟩ := h.foreign negative
    rw [hcs]
    exact ⟨Keyword.isNull_foreign hc hforeign, Keyword.bool?_foreign hc hforeign, h.octal?_none negative,
      Integer.read?_point h hpoint negative⟩

theorem Printer.inferred? (d : Double) : inferred? (p.write d) = some (.double d) := by
  cases d with
  | nan => rfl
  | infinity negative => cases negative <;> rfl
  | finite negative code =>
    have hread := (p.read?_pointed negative code).trans (p.readsBack negative code)
    obtain ⟨-, -, -, hinteger⟩ := p.refused (.finite negative code)
    obtain ⟨cs, hcs, h, -⟩ := p.exists_numeric negative code
    change read? (p.write (.finite negative code)) = _ at hread
    rw [hcs] at hread hinteger ⊢
    rw [h.inferred?_eq, hinteger, hread]
    rfl

end

/-- Every printer in the notation that reads back, such as that of the shortest decimal, gives texts of
doubles that stay bare, are refused by the rules for nulls, booleans and integers, and are read as the
doubles that they were written for; so different doubles have different texts. Putting in the point
keeps the value, and changes the text just if it has none. -/
theorem double_text_stays_double :
    (∀ d, text d = Printer.shortest.write d) ∧
    ∀ p : Printer,
      (∀ d, Scalar.isPlainSafe (p.write d) = true ∧
        Writer.render (String.ofList (p.write d)) .any = p.write d ∧
        Keyword.isNull (p.write d) = false ∧ Keyword.bool? (p.write d) = none ∧
        Integer.octal? (p.write d) = none ∧ Integer.read? (p.write d) = none ∧
        resolve (String.ofList (p.write d)) .plain none = .double d) ∧
      (∀ negative code, read? (pointed (p.text negative code)) = read? (p.text negative code) ∧
        (pointed (p.text negative code) ≠ p.text negative code ↔ '.' ∉ p.text negative code)) ∧
      Function.Injective p.write := by
  refine ⟨text_eq, fun p => ⟨fun d => ?_, fun negative code => ?_, fun d d' h => ?_⟩⟩
  · obtain ⟨hnull, hbool, hoctal, hinteger⟩ := p.refused d
    have hsafe := p.isPlainSafe d
    refine ⟨hsafe, ?_, hnull, hbool, hoctal, hinteger, ?_⟩
    · rw [Writer.render, String.toList_ofList, if_pos hsafe]
    · simp [resolve_eq, Style.isQuoted, infer, p.inferred? d]
  · exact ⟨p.read?_pointed negative code, not_congr pointed_eq_self_iff⟩
  · have hread := p.inferred? d
    rw [h, p.inferred? d'] at hread
    cases hread
    rfl

end YamlCodec.Scalar.Float
