import YamlCodec.Json.Read
import YamlCodec.Json.Write
import YamlCodec.Proofs.Double.Nearest
import YamlCodec.Proofs.Scalar.Number
import YamlCodec.Proofs.Value.Datum

/-!
# JSON numbers read back

A number is digits without idle zeros, a fraction or none and an exponent or none, and ends before a
comma or a bracket. An integer has neither fraction nor exponent. Doubles read back if they are written
with one of them, in digits that they are nearest to, and if decimals are rounded to the nearest.
-/

set_option autoImplicit false

namespace YamlCodec.Json
open YamlCodec.Text YamlCodec.Text.Digit

/-- The text ends, or a comma or a closing bracket comes next. -/
def Ends (cs : List Char) : Prop := ∀ c ∈ cs.head?, c ∈ [',', ']', '}']

/-- No zero stands before other digits. -/
def SoleZero (cs : List Char) : Prop := ∀ rest, cs = '0' :: rest → rest = []

/-- The text of a layout, without a point where there is no fraction. -/
def bare (l : Double.Layout) : List Char :=
  l.whole ++ ((if l.fraction = [] then [] else '.' :: l.fraction) ++
    Double.Layout.exponentText l.exponent)

/-- A layout that a number may have. -/
structure Proper (l : Double.Layout) : Prop where
  whole_pos : l.whole ≠ []
  whole_digits : AllDecimal l.whole
  sole_zero : SoleZero l.whole
  fraction_digits : AllDecimal l.fraction

/-- A layout that shows that it is no integer, and the decimal that it stands for. -/
structure Denotes (l : Double.Layout) (q : ℚ) : Prop extends Proper l where
  shown : l.fraction ≠ [] ∨ l.exponent ≠ none
  number : ∃ n : Nat, Digit.number? 10 (l.whole ++ l.fraction) = some n ∧
    (n : ℚ) * 10 ^ (l.exponent.getD 0 - l.fraction.length) = q

/-- What is assumed of numbers: that a finite double is written as a decimal to which it is nearest, and
that decimals are rounded correctly. -/
structure Numbers.Lawful (num : Numbers) : Prop where
  printed : ∀ negative code, ∃ l q, num.print negative code = Scalar.signed negative (bare l) ∧
    Denotes l q ∧ Double.IsNearest q code
  rounded : ∀ negative digits exponent, ∃ code,
    num.round negative digits exponent = .ofCode negative code ∧
      Double.IsNearest ((digits : ℚ) * 10 ^ (exponent : ℤ)) code

/-! ## Readers -/

theorem Ends.ne {cs : List Char} (h : Ends cs) {x : Char} (hx : x ∉ [',', ']', '}']) :
    ∀ c ∈ cs.head?, c ≠ x := by
  rintro c hc rfl
  exact hx (h c hc)

theorem Ends.not_decimal {cs : List Char} (h : Ends cs) : ∀ c ∈ cs.head?, ¬ IsDecimal c := by
  intro c hc hd
  have hmark := h c hc
  simp only [List.mem_cons, List.not_mem_nil, or_false] at hmark
  rcases hmark with rfl | rfl | rfl <;> exact absurd hd (by decide)

theorem readWhole?_append {ds rest : List Char} (hpos : ds ≠ []) (hds : AllDecimal ds)
    (hzero : SoleZero ds) (hrest : ∀ c ∈ rest.head?, ¬ IsDecimal c) :
    readWhole? (ds ++ rest) = some (ds, rest) := by
  rw [readWhole?, span_append hds hrest]
  simp only
  split
  · contradiction
  · rfl
  · rename_i c hshort
    have := hzero _ rfl
    simp_all
  · rfl

theorem readFraction?_append {ds rest : List Char} (hds : AllDecimal ds)
    (hrest : ∀ c ∈ rest.head?, ¬ IsDecimal c ∧ c ≠ '.') :
    readFraction? ((if ds = [] then [] else '.' :: ds) ++ rest) = some (ds, rest) := by
  split
  · rename_i hempty
    subst hempty
    rw [List.nil_append]
    unfold readFraction?
    split
    · exact absurd rfl (hrest '.' rfl).2
    · rfl
  · rename_i hne
    rw [List.cons_append, readFraction?, span_append hds fun c hc => (hrest c hc).1]
    simp [hne]

theorem readExponent?_append (e : Option Int) {rest : List Char} (hrest : Ends rest) :
    readExponent? (Double.Layout.exponentText e ++ rest) = some (e, rest) := by
  cases e with
  | none =>
    rw [Double.Layout.exponentText, List.nil_append]
    unfold readExponent?
    split
    · exact absurd rfl (hrest.ne (by decide) 'e' rfl)
    · exact absurd rfl (hrest.ne (by decide) 'E' rfl)
    · rfl
  | some e =>
    have hspan := span_append (allDecimal_numeral e.natAbs) hrest.not_decimal
    have hnumber : Digit.number? 10 (numeral e.natAbs) = some e.natAbs :=
      number?_of_run (numeral_length_pos _) (run?_numeral _)
    by_cases h : e < 0
    · simp [Double.Layout.exponentText, h, readExponent?, readPower?, hspan, hnumber, abs_of_neg h]
    · simp [Double.Layout.exponentText, h, readExponent?, readPower?, hspan, hnumber]
      omega

theorem soleZero_numeral (n : Nat) : SoleZero (numeral n) := by
  intro rest h
  obtain ⟨d, hd, tail, htail, hzero⟩ := numeral_head n
  rw [htail, List.cons.injEq] at h
  obtain ⟨hhead, rfl⟩ := h
  exact (hzero (Scalar.ofValue_zero d hd hhead)).2

section
variable {num : Numbers} {rest : List Char} (hrest : Ends rest)
include hrest

/-- A number is read to its end, and it is that of its digits and exponent. -/
theorem readNumber?_bare {l : Double.Layout} (h : Proper l) (negative : Bool) :
    readNumber? num negative (bare l ++ rest) =
      (number? num negative l.whole l.fraction l.exponent).map fun d => (d, rest) := by
  have hexponent : ∀ c ∈ (Double.Layout.exponentText l.exponent ++ rest).head?,
      ¬ IsDecimal c ∧ c ≠ '.' := by
    cases l.exponent with
    | none => exact fun c hc => ⟨hrest.not_decimal c hc, hrest.ne (by decide) c hc⟩
    | some e =>
      rintro c ⟨⟩
      decide
  have hfraction : ∀ c ∈ ((if l.fraction = [] then [] else '.' :: l.fraction) ++
      (Double.Layout.exponentText l.exponent ++ rest)).head?, ¬ IsDecimal c := by
    split
    · exact fun c hc => (hexponent c hc).1
    · rintro c ⟨⟩
      decide
  rw [readNumber?, bare, List.append_assoc, List.append_assoc,
    readWhole?_append h.whole_pos h.whole_digits h.sole_zero hfraction]
  simp only [Option.bind_eq_bind, Option.bind_some,
    readFraction?_append h.fraction_digits hexponent, readExponent?_append l.exponent hrest]
  cases number? num negative l.whole l.fraction l.exponent <;> rfl

/-- A numeral that 64 bits hold is an integer. -/
theorem readNumber?_numeral {negative : Bool} {n : Nat} {d : Datum}
    (h : ofInteger? negative n = some d) :
    readNumber? num negative (numeral n ++ rest) = some (d, rest) := by
  have hproper : Proper ⟨numeral n, [], none⟩ :=
    ⟨List.ne_nil_of_length_pos (numeral_length_pos _), allDecimal_numeral _, soleZero_numeral _,
      by simp [AllDecimal]⟩
  have hbare : bare ⟨numeral n, [], none⟩ = numeral n := by
    simp [bare, Double.Layout.exponentText]
  have hdigits : Digit.number? 10 (numeral n) = some n :=
    number?_of_run (numeral_length_pos _) (run?_numeral _)
  have hnumber : number? num negative (numeral n) [] none = some d := by
    simp [number?, hdigits, h]
  have hread : readNumber? num negative (bare _ ++ rest) = _ := readNumber?_bare hrest hproper negative
  rw [hbare, hnumber] at hread
  exact hread

end

/-! ## Integers -/

theorem ofInteger?_unsigned (n : UInt64) : ofInteger? false n.toNat = some (.unsigned n) := by
  have hless : n.toNat < 0x10000000000000000 := n.toNat_lt
  simp [ofInteger?, hless]

/-- An integer is read with its sign, and without one if it is not negative. -/
theorem ofInteger?_signed (i : Int64) :
    ofInteger? (decide (i.toInt < 0)) i.toInt.natAbs = some (.ofSigned i) := by
  have hl : -2 ^ 63 ≤ i.toInt := i.le_toInt
  rw [Datum.ofSigned]
  split
  · rename_i hsign
    have habs : -(i.toInt.natAbs : Int) = i.toInt := by omega
    rw [decide_eq_true hsign, ofInteger?, if_pos rfl, if_pos ⟨by omega, by omega⟩, habs, Int64.ofInt_toInt]
  · rename_i hsign
    have hnat : i.toInt.natAbs = i.toUInt64.toNat := by
      have hsame := Datum.toNat_toUInt64 hsign
      omega
    rw [decide_eq_false hsign, hnat]
    exact ofInteger?_unsigned _

/-! ## Doubles -/

/-- Digits with a fraction or an exponent are rounded. -/
theorem number?_decimal (num : Numbers) {l : Double.Layout} {n : Nat}
    (hn : Digit.number? 10 (l.whole ++ l.fraction) = some n)
    (h : l.fraction ≠ [] ∨ l.exponent ≠ none) (negative : Bool) :
    number? num negative l.whole l.fraction l.exponent =
      finite? (num.round negative n (l.exponent.getD 0 - l.fraction.length)) := by
  have hplain : (l.fraction.isEmpty && l.exponent.isNone) = false := by
    simp only [Bool.and_eq_false_iff, List.isEmpty_eq_false_iff, Option.isNone_eq_false_iff]
    exact h.imp id Option.isSome_iff_ne_none.mpr
  simp only [number?, hn, Option.bind_eq_bind, Option.bind_some, hplain, Bool.false_eq_true, if_false]

/-- A finite double is written as digits behind its sign, which are read as the double again. -/
theorem readNumber?_finite {num : Numbers} (hnum : num.Lawful) (negative : Bool)
    (code : Fin Double.magnitudes) :
    ∃ cs, num.print negative code = Scalar.signed negative cs ∧
      (∃ c tail, cs = c :: tail ∧ IsDecimal c) ∧
      ∀ rest, Ends rest →
        readNumber? num negative (cs ++ rest) = some (.double (.finite negative code), rest) := by
  obtain ⟨l, q, htext, hl, hnearest⟩ := hnum.printed negative code
  obtain ⟨n, hn, rfl⟩ := hl.number
  obtain ⟨code', hround, hnearest'⟩ :=
    hnum.rounded negative n (l.exponent.getD 0 - l.fraction.length)
  obtain rfl := hnearest'.unique hnearest
  obtain ⟨c, tail, hwhole⟩ := List.exists_cons_of_ne_nil hl.whole_pos
  refine ⟨bare l, htext, ⟨c, _, by rw [bare, hwhole, List.cons_append], ?_⟩, fun rest hrest => ?_⟩
  · exact hl.whole_digits c (by simp [hwhole])
  · rw [readNumber?_bare hrest hl.toProper, number?_decimal num hn hl.shown, hround, Double.ofCode,
      dif_pos code.isLt]
    rfl

/-! ## Shortest decimals -/

theorem denotes_positional {l : Double.Layout} {d : Double.Decimal} (h : l.Writes d)
    (hzero : SoleZero l.whole) : bare l = l.text ∧ Denotes l (d.digits * 10 ^ d.exponent) := by
  have hfraction : l.fraction ≠ [] := List.ne_nil_of_length_pos h.fraction_pos
  have hwhole : l.whole ≠ [] := List.ne_nil_of_length_pos h.whole_pos
  obtain ⟨zeros, hrun, hexponent⟩ := h.number
  refine ⟨by simp [bare, hfraction, Double.Layout.text], ⟨hwhole, h.whole_digits, hzero,
    h.fraction_digits⟩, .inl hfraction, _, number?_of_run (by simp [h.whole_pos]) hrun, ?_⟩
  rw [hexponent, zpow_sub₀ (by norm_num), zpow_natCast]
  push_cast
  field_simp

/-- Positional digits of a number begin with another digit than zero, or with a zero before the point. -/
theorem soleZero_positional {n : Nat} (hn : n ≠ 0) {place : Int} {l : Double.Layout}
    (hl : Double.positional (numeral n) place = l.text) (hwhole : AllDecimal l.whole) :
    SoleZero l.whole := by
  intro rest h
  rw [Double.Layout.text, h, List.cons_append] at hl
  cases place with
  | ofNat k =>
    obtain ⟨d, hd, tail, htail, hzero⟩ := numeral_head n
    rw [htail] at hl
    have hhead : ofValue d = '0' := (List.cons.inj hl).1
    exact absurd (hzero (Scalar.ofValue_zero d hd hhead)).1 hn
  | negSucc k =>
    have hpoint := (List.cons.inj hl).2
    cases rest with
    | nil => rfl
    | cons c rest =>
      obtain rfl := (List.cons.inj hpoint).1
      exact absurd (hwhole '.' (by simp [h])) (by decide)

theorem denotes_scientific (d : Double.Decimal) {place : Int}
    (hp : d.exponent + (numeral d.digits).length - 1 = place) :
    ∃ l, Double.scientific (numeral d.digits) place = bare l ∧ Denotes l (d.digits * 10 ^ d.exponent) := by
  have hall := allDecimal_numeral d.digits
  have hrun := run?_numeral d.digits
  obtain ⟨c, cs, hdigits⟩ := List.exists_cons_of_length_pos (numeral_length_pos d.digits)
  rw [hdigits] at hall hrun hp ⊢
  refine ⟨⟨[c], cs, some place⟩, ?_, ⟨by simp, hall.take 1, ?_, hall.drop 1⟩, .inr (by simp),
    d.digits, hrun, ?_⟩
  · simp [Double.scientific, bare, Double.Layout.exponentText]
  · exact fun rest h => (List.cons.inj h).2.symm
  · have hexponent : place - (cs.length : ℤ) = d.exponent := by
      rw [List.length_cons] at hp
      omega
    rw [Option.getD_some, hexponent]

theorem denotes_text {d : Double.Decimal} (hd : d.digits ≠ 0) (w : Double.Window) :
    ∃ l, d.text w = bare l ∧ Denotes l (d.digits * 10 ^ d.exponent) := by
  unfold Double.Decimal.text
  simp only
  split
  · obtain ⟨l, hl, hw⟩ := Double.positional_layout (d := d) rfl
    obtain ⟨hbare, hdenotes⟩ := denotes_positional hw (soleZero_positional hd hl hw.whole_digits)
    exact ⟨l, hl.trans hbare.symm, hdenotes⟩
  · exact denotes_scientific d rfl

theorem shortest_ne_zero {code : Fin Double.magnitudes} (h : code.val ≠ 0) :
    (Double.shortest code).digits ≠ 0 := by
  intro hzero
  have hread := (Double.readsBack_iff _ _).mp (Double.shortest_readsBack h)
  rw [hzero, Nat.cast_zero, zero_mul, Double.ofValue, if_pos rfl, Double.zero] at hread
  injection hread with _ hcode
  exact h (congrArg Fin.val hcode.symm)

theorem finiteText_denotes (negative : Bool) (code : Fin Double.magnitudes) :
    ∃ l q, Double.finiteText negative code = Scalar.signed negative (bare l) ∧ Denotes l q ∧
      Double.IsNearest q code := by
  by_cases h : code.val = 0
  · obtain rfl : code = ⟨0, by decide⟩ := Fin.ext h
    have hproper : Proper ⟨['0'], ['0'], none⟩ :=
      ⟨by decide, allDecimal_zeros 1, fun rest h => (List.cons.inj h).2.symm, allDecimal_zeros 1⟩
    have hzero : Double.ofValue negative 0 = .finite negative ⟨0, by decide⟩ := by
      simp [Double.ofValue, Double.zero]
    exact ⟨_, 0, rfl, ⟨hproper, .inl (by decide), 0, by decide, by simp⟩,
      Double.isNearest_of_ofValue le_rfl hzero⟩
  · obtain ⟨l, hl, hd⟩ := denotes_text (shortest_ne_zero h) Double.window
    have hread := (Double.readsBack_iff _ _).mp (Double.shortest_readsBack h)
    refine ⟨l, _, ?_, hd, Double.isNearest_of_ofValue (by positivity) hread⟩
    rw [Double.finiteText, if_neg h, hl]
    rfl

/-- Shortest decimals and rounding to the nearest double are as assumed. -/
theorem shortest_lawful : Numbers.shortest.Lawful where
  printed := finiteText_denotes
  rounded := by
    intro negative digits exponent
    have hdecimal : Numbers.shortest.round negative digits exponent =
        .ofValue negative (digits * 10 ^ exponent) := Double.ofDecimal_eq negative digits exponent
    rw [hdecimal]
    exact Double.ofValue_nearest negative (by positivity)

end YamlCodec.Json
