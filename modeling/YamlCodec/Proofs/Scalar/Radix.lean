import YamlCodec.Proofs.Double.Nearest
import YamlCodec.Proofs.Scalar.HexFloat
import YamlCodec.Proofs.Scalar.Number

/-!
# Integer literals of any size

An integer literal is digits in the base that its form tells, behind an optional sign. If a signed
64-bit integer holds its value, the value is what is read. Else the literal is left to the readers of
floats, which know no octal numbers: a decimal literal keeps its value up to rounding, a hexadecimal one
is rounded without the digits that are lost, `0o` digits are a string, and the digits behind a leading
zero are read in base ten.
-/

set_option autoImplicit false

namespace YamlCodec.Scalar
open YamlCodec.Text
open YamlCodec.Text.Digit (Writes writes_iff number? value? IsDecimal AllDecimal)

/-! ## What readers of floats make of digits -/

/-- Decimal digits behind an optional sign are read as the double nearest to their number. -/
theorem Float.read?_digits {cs : List Char} {n : ℕ} (h : number? 10 (Sign.split cs).2 = some n) :
    read? cs = some (Double.ofValue (Sign.split cs).1 n) := by
  have hall : AllDecimal (Sign.split cs).2 := Digit.isSome_of_number? h
  have hmark : marked 'x' 'X' (Sign.split cs).2 = none := by
    cases hm : marked 'x' 'X' (Sign.split cs).2 with
    | none => rfl
    | some ds =>
      obtain ⟨x, hx, heq⟩ := marked_eq_some_iff.mp hm
      rw [heq] at hall
      simp only [List.mem_cons, List.not_mem_nil, or_false] at hx
      rcases hx with rfl | rfl
      · exact absurd (hall 'x' (by simp)) (by decide)
      · exact absurd (hall 'X' (by simp)) (by decide)
  obtain ⟨c, hc⟩ : ∃ c, c ∈ (Sign.split cs).2 := by
    cases hbody : (Sign.split cs).2 with
    | nil => rw [hbody] at h; cases h
    | cons c rest => exact ⟨c, List.mem_cons_self⟩
  have hspan : Digit.span 10 (Sign.split cs).2 = ((Sign.split cs).2, []) := by
    have happend : Digit.span 10 ((Sign.split cs).2 ++ []) = ((Sign.split cs).2, []) :=
      Digit.span_append hall (by simp)
    rwa [List.append_nil] at happend
  rw [read?_unmarked hc (digit_foreign (hall c hc)) hmark]
  simp [decimal?, hspan, h, exponent?, Double.ofDecimal_eq]

/-- Hexadecimal digits behind an optional sign and their mark are read without those that are lost. -/
theorem Float.read?_hexadecimal {cs ds : List Char} {n : ℕ}
    (hmark : marked 'x' 'X' (Sign.split cs).2 = some ds) (h : number? 16 ds = some n) :
    read? cs = some (Double.ofValue (Sign.split cs).1 (HexFloat.kept n)) := by
  rw [read?_eq, hmark]
  simp only [HexFloat.read?_digits h, Option.map_some, Double.negate_ofValue, Option.some.injEq]
  cases (Sign.split cs).1 with
  | false => exact if_neg Bool.false_ne_true
  | true => exact if_pos rfl

/-- No reader of integers or floats but that of `0o` digits knows their mark. -/
theorem read?_markedOctal {cs ds : List Char} (h : marked 'o' 'O' cs = some ds) :
    Integer.read? cs = none ∧ Float.read? cs = none := by
  obtain ⟨o, ho, rfl⟩ := marked_eq_some_iff.mp h
  simp only [List.mem_cons, List.not_mem_nil, or_false] at ho
  have hfloat {o : Char} (hspan : Digit.span 10 ('0' :: o :: ds) = (['0'], o :: ds))
      (hexponent : Float.exponent? (o :: ds) = none) (hpoint : o ≠ '.') (hx : o ≠ 'x') (hX : o ≠ 'X') :
      Float.read? ('0' :: o :: ds) = none := by
    have hsplit : Sign.split ('0' :: o :: ds) = (false, '0' :: o :: ds) := rfl
    have hmark : marked 'x' 'X' ('0' :: o :: ds) = none := by simp [marked, hx, hX]
    rw [Float.read?_unmarked (c := '0') (by simp [hsplit]) (by decide) (by rw [hsplit]; exact hmark),
      hsplit]
    simp [Float.decimal?, hspan, hpoint, hexponent]
  rcases ho with rfl | rfl
  · exact ⟨rfl, hfloat rfl rfl (by decide) (by decide) (by decide)⟩
  · exact ⟨rfl, hfloat rfl rfl (by decide) (by decide) (by decide)⟩

/-! ## Literals by form -/

namespace Integer

/-- How an integer literal tells its base. -/
inductive Form where
  | hexadecimal
  | leadingZero
  | markedOctal
  | decimal
  deriving DecidableEq

/-- Digits of a base behind a sign or none, and the integer that they write. -/
inductive Signed (base : ℕ) : List Char → List Char → ℤ → Prop
  | bare {ds : List Char} {n : ℕ} : Writes base ds n → Signed base [] ds n
  | plus {ds : List Char} {n : ℕ} : Writes base ds n → Signed base ['+'] ds n
  | minus {ds : List Char} {n : ℕ} : Writes base ds n → Signed base ['-'] ds (-n)

/-- The text is a literal of a form, and its digits in the base of the form write this integer. -/
inductive Literal : Form → List Char → ℤ → Prop
  | hexadecimal {sign ds : List Char} {x : Char} {z : ℤ} :
      Signed 16 sign ds z → x ∈ ['x', 'X'] → Literal .hexadecimal (sign ++ '0' :: x :: ds) z
  | leadingZero {sign ds : List Char} {z : ℤ} :
      Signed 8 sign ds z → Literal .leadingZero (sign ++ '0' :: ds) z
  | markedOctal {ds : List Char} {o : Char} {z : ℤ} :
      Signed 8 [] ds z → o ∈ ['o', 'O'] → Literal .markedOctal ('0' :: o :: ds) z
  | decimal {sign ds : List Char} {z : ℤ} :
      Signed 10 sign ds z → (ds.head? = some '0' → ds = ['0']) → Literal .decimal (sign ++ ds) z

section
variable {base : ℕ} {sign ds : List Char} {z : ℤ}

/-- The sign is split off a text behind it that begins with a digit. -/
theorem Signed.split (h : Signed base sign ds z) (body : List Char)
    (hbody : ∀ c ∈ body.head?, (Digit.hexValue? c).isSome) :
    ∃ (negative : Bool) (n : ℕ), Sign.split (sign ++ body) = (negative, body) ∧
      Writes base ds n ∧ z = if negative then -(n : ℤ) else n := by
  cases h with
  | bare h =>
    refine ⟨false, _, ?_, h, rfl⟩
    rw [List.nil_append]
    unfold Sign.split
    split
    · cases hbody '+' rfl
    · cases hbody '-' rfl
    · rfl
  | plus h => exact ⟨false, _, rfl, h, rfl⟩
  | minus h => exact ⟨true, _, rfl, h, rfl⟩

theorem Signed.writes (h : Signed base sign ds z) :
    ∃ n, Writes base ds n ∧ (z = n ∨ z = -n) := by
  cases h with
  | bare h => exact ⟨_, h, .inl rfl⟩
  | plus h => exact ⟨_, h, .inl rfl⟩
  | minus h => exact ⟨_, h, .inr rfl⟩

theorem Signed.denotes (h : Signed base sign ds z) {body : List Char}
    (hbody : ∀ n, Writes base ds n → Unsigned body n) : Denotes (sign ++ body) z := by
  cases h with
  | bare h => exact .bare (hbody _ h)
  | plus h => exact .plus (hbody _ h)
  | minus h => exact .minus (hbody _ h)

end

theorem Literal.denotes {form : Form} {cs : List Char} {z : ℤ} (h : Literal form cs z)
    (hform : form ≠ .markedOctal) : Denotes cs z := by
  cases h with
  | hexadecimal h hx => exact h.denotes fun n hn => .hexadecimal hx hn
  | leadingZero h => exact h.denotes fun n hn => .octal hn
  | markedOctal => exact absurd rfl hform
  | @decimal sign ds z h hhead =>
    apply h.denotes
    intro n hn
    cases ds with
    | nil => exact absurd rfl hn.ne_nil
    | cons c ds =>
      by_cases hc : c = '0'
      · subst hc
        obtain rfl : ds = [] := by simpa using hhead rfl
        obtain rfl : 0 = n := Option.some.inj (writes_iff.mp hn)
        exact .zero
      · exact .decimal hc hn

theorem Denotes.unique {cs : List Char} {z w : ℤ} (hz : Denotes cs z) (hw : Denotes cs w) : z = w := by
  obtain ⟨n, hn, rfl⟩ := denotes_iff.mp hz
  obtain ⟨m, hm, rfl⟩ := denotes_iff.mp hw
  rw [unsigned_iff, writes_iff] at hn hm
  rw [Option.some.inj (hn.symm.trans hm)]

/-- The integers that are held in 64 bits. -/
def Held (z : ℤ) : Prop := -2 ^ 63 ≤ z ∧ z < 2 ^ 63

instance (z : ℤ) : Decidable (Held z) := inferInstanceAs (Decidable (_ ∧ _))

theorem held_toInt (i : Int64) : Held i.toInt := ⟨i.le_toInt, i.toInt_lt⟩

theorem toInt_ofInt_held {z : ℤ} (h : Held z) : (Int64.ofInt z).toInt = z :=
  Int64.toInt_ofInt_of_le h.1 h.2

theorem Denotes.read? {cs : List Char} {z : ℤ} (h : Denotes cs z) :
    read? cs = if Held z then some (.ofInt z) else none := by
  split
  · rename_i hheld
    rw [read?_eq_some_iff, toInt_ofInt_held hheld]
    exact h
  · rename_i hout
    cases hread : Integer.read? cs with
    | none => rfl
    | some i =>
      have heq := h.unique (read?_eq_some_iff.mp hread)
      exact absurd (heq ▸ held_toInt i) hout

/-! ## Octal digits in base ten -/

theorem digits_lt {base : ℕ} {cs : List Char} {ds : List ℕ}
    (h : cs.Forall₂ (fun c d => Digit.IsDigit c d ∧ d < base) ds) : ∀ d ∈ ds, d < base := by
  induction h with
  | nil => simp
  | cons hd _ ih =>
    intro d hmem
    rcases List.mem_cons.mp hmem with rfl | hmem
    · exact hd.2
    · exact ih d hmem

/-- From twenty-two octal digits on, digits write more than four times as much in base ten: all but the
lowest seven places are worth more, and those seven are worth little. -/
theorem ofDigits_ten {l : List ℕ} (hl : ∀ d ∈ l, d < 8) (h : 2 ^ 63 ≤ Nat.ofDigits 8 l) :
    4 * Nat.ofDigits 8 l ≤ Nat.ofDigits 10 l := by
  have hsplit (b : ℕ) : Nat.ofDigits b l =
      Nat.ofDigits b (l.take 7) + b ^ (l.take 7).length * Nat.ofDigits b (l.drop 7) := by
    rw [← Nat.ofDigits_append, List.take_append_drop]
  have hlow : Nat.ofDigits 8 (l.take 7) < 8 ^ (l.take 7).length :=
    Nat.ofDigits_lt_base_pow_length (by decide) fun d hd => hl d (List.mem_of_mem_take hd)
  have hhigh : Nat.ofDigits 8 (l.drop 7) ≤ Nat.ofDigits 10 (l.drop 7) :=
    Nat.ofDigits_monotone _ (by decide)
  have height := hsplit 8
  have hten := hsplit 10
  rcases Nat.lt_or_ge l.length 7 with hshort | hlong
  · have hlen : (l.take 7).length ≤ 7 := List.length_take_le 7 l
    have hpow := Nat.pow_le_pow_right (show 0 < 8 by decide) hlen
    rw [List.drop_eq_nil_of_le hshort.le] at height
    simp only [Nat.ofDigits_nil, Nat.mul_zero, Nat.add_zero] at height
    omega
  · have hlen : (l.take 7).length = 7 := by
      rw [List.length_take]
      omega
    rw [hlen] at hlow height hten
    omega

/-- Octal digits write a number in base ten, and a larger one if it is past 63 bits. -/
theorem writes_ten {ds : List Char} {n : ℕ} (h : Writes 8 ds n) :
    ∃ m, Writes 10 ds m ∧ (2 ^ 63 ≤ n → 4 * n ≤ m) := by
  obtain ⟨es, hne, hes, rfl⟩ := h
  have hdigits : ∀ d ∈ es.reverse, d < 8 := by
    intro d hd
    exact digits_lt hes d (List.mem_reverse.mp hd)
  refine ⟨Nat.ofDigits 10 es.reverse, ⟨es, hne, ?_, rfl⟩, ofDigits_ten hdigits⟩
  exact hes.imp fun c d hd => ⟨hd.1, hd.2.trans (by decide)⟩

/-! ## What is read -/

/-- A literal is no word: it holds a digit. -/
theorem Literal.foreign {form : Form} {cs : List Char} {z : ℤ} (h : Literal form cs z) :
    ∃ c ∈ cs, c.toLower ∉ Keyword.letters := by
  cases h with
  | hexadecimal => exact ⟨'0', by simp, by decide⟩
  | leadingZero => exact ⟨'0', by simp, by decide⟩
  | markedOctal => exact ⟨'0', by simp, by decide⟩
  | @decimal sign ds z h =>
    obtain ⟨n, hn, -⟩ := h.writes
    have hall : AllDecimal ds := Digit.isSome_of_number? (writes_iff.mp hn)
    obtain ⟨c, hc⟩ := List.exists_mem_of_ne_nil ds hn.ne_nil
    exact ⟨c, List.mem_append_right sign hc, digit_foreign (hall c hc)⟩

theorem Denotes.octal?_none {cs : List Char} {z : ℤ} (h : Denotes cs z) : octal? cs = none := by
  rw [octal?_eq]
  cases hm : marked 'o' 'O' cs with
  | none => rfl
  | some ds =>
    obtain ⟨o, ho, rfl⟩ := marked_eq_some_iff.mp hm
    have hletter : Digit.hexValue? o = none := by
      simp only [List.mem_cons, List.not_mem_nil, or_false] at ho
      rcases ho with rfl | rfl
      · rfl
      · rfl
    cases h with
    | bare h =>
      cases h with
      | hexadecimal hx =>
        simp only [List.mem_cons, List.not_mem_nil, or_false] at ho hx
        rcases ho with rfl | rfl <;> simp at hx
      | octal h =>
        obtain ⟨d, hd, -⟩ := h.head
        exact absurd hd (not_isDigit hletter d)
      | decimal hzero => exact absurd rfl hzero

/-- A literal without the mark of `0o` digits is an integer if it is held, and else what the reader of
floats makes of it. -/
theorem Denotes.inferred? {cs : List Char} {z : ℤ} (h : Denotes cs z)
    (hforeign : ∃ c ∈ cs, c.toLower ∉ Keyword.letters) :
    inferred? cs = if Held z then some (.integer (.ofInt z)) else (Float.read? cs).map .double := by
  obtain ⟨c, hc, hforeign⟩ := hforeign
  rw [inferred?_foreign hc hforeign, h.octal?_none, h.read?]
  by_cases hheld : Held z
  · rw [if_pos hheld, if_pos hheld]
  · rw [if_neg hheld, if_neg hheld]

theorem ne_zero_of_out {z : ℤ} (hout : ¬ Held z) : z ≠ 0 := by
  rintro rfl
  exact hout (by decide)

/-- A magnitude that is not held has more than 63 bits or is the power of two after them. -/
theorem le_natAbs_of_out {z : ℤ} (hout : ¬ Held z) : 2 ^ 63 ≤ z.natAbs := by
  unfold Held at hout
  omega

theorem ofInt_kept {z : ℤ} (hz : z ≠ 0) :
    Double.ofInt (z.sign * HexFloat.kept z.natAbs) =
      Double.ofValue (z < 0) (HexFloat.kept z.natAbs) := by
  have hkept : 0 < HexFloat.kept z.natAbs :=
    Nat.pos_of_ne_zero (HexFloat.kept_ne_zero (Int.natAbs_ne_zero.mpr hz))
  rw [Double.ofInt_eq]
  rcases Int.lt_or_gt_of_ne hz with hneg | hpos
  · simp [Int.sign_eq_neg_one_of_neg hneg, hneg, hkept]
  · have hsign : ¬ z < 0 := by omega
    have hsign' : ¬ (HexFloat.kept z.natAbs : ℤ) < 0 := by omega
    simp [Int.sign_eq_one_of_pos hpos, hsign, hsign']

theorem Signed.float_digits {sign ds : List Char} {z : ℤ} (h : Signed 10 sign ds z) (hz : z ≠ 0) :
    Float.read? (sign ++ ds) = some (Double.ofInt z) := by
  have hhead : ∀ c ∈ ds.head?, (Digit.hexValue? c).isSome := by
    intro c hc
    obtain ⟨n, hn, -⟩ := h.writes
    obtain ⟨d, hd, -⟩ := Writes.head (List.eq_cons_of_mem_head? hc ▸ hn)
    rw [Digit.hexValue?_eq_some_iff.mpr hd]
    rfl
  obtain ⟨negative, n, hsplit, hn, rfl⟩ := h.split ds hhead
  have hne : n ≠ 0 := by
    rintro rfl
    simp at hz
  rw [Float.read?_digits (by rw [hsplit]; exact writes_iff.mp hn), hsplit, Double.ofInt_signed _ hne]

/-- Octal digits that write what is not held write more than four times as much in base ten. -/
theorem Signed.ten {sign ds : List Char} {z : ℤ} (h : Signed 8 sign ds z) (hout : ¬ Held z) :
    ∃ w, Signed 10 sign ds w ∧ (w < 0 ↔ z < 0) ∧ 4 * z.natAbs ≤ w.natAbs := by
  have hlarge := le_natAbs_of_out hout
  cases h with
  | bare h =>
    obtain ⟨m, hm, hle⟩ := writes_ten h
    exact ⟨m, .bare hm, by omega, by omega⟩
  | plus h =>
    obtain ⟨m, hm, hle⟩ := writes_ten h
    exact ⟨m, .plus hm, by omega, by omega⟩
  | minus h =>
    obtain ⟨m, hm, hle⟩ := writes_ten h
    exact ⟨-m, .minus hm, by omega, by omega⟩

theorem Signed.zero_cons {sign ds : List Char} {z : ℤ} (h : Signed 10 sign ds z) :
    Signed 10 sign ('0' :: ds) z := by
  cases h with
  | bare h => exact .bare h.zero_cons
  | plus h => exact .plus h.zero_cons
  | minus h => exact .minus h.zero_cons

section
variable {cs : List Char} {z : ℤ} (hout : ¬ Held z)
include hout

theorem Literal.float_decimal (h : Literal .decimal cs z) :
    Float.read? cs = some (Double.ofInt z) := by
  cases h with
  | decimal h => exact h.float_digits (ne_zero_of_out hout)

theorem Literal.float_hexadecimal (h : Literal .hexadecimal cs z) :
    Float.read? cs = some (Double.ofInt (z.sign * HexFloat.kept z.natAbs)) := by
  cases h with
  | @hexadecimal sign ds x z h hx =>
    obtain ⟨negative, n, hsplit, hn, rfl⟩ := h.split ('0' :: x :: ds) (by simp; rfl)
    have hne : n ≠ 0 := by
      rintro rfl
      exact ne_zero_of_out hout (by simp)
    have hmark : marked 'x' 'X' (Sign.split (sign ++ '0' :: x :: ds)).2 = some ds := by
      rw [hsplit]
      exact marked_eq_some_iff.mpr ⟨x, hx, rfl⟩
    have hvalue : Double.ofInt ((if negative then -(n : ℤ) else n).sign *
        HexFloat.kept (if negative then -(n : ℤ) else n).natAbs) =
          Double.ofValue negative (HexFloat.kept n) := by
      rw [ofInt_kept (ne_zero_of_out hout)]
      have hsign : ¬ (n : ℤ) < 0 := by omega
      cases negative with
      | false => simp [hsign]
      | true => simp [Nat.pos_of_ne_zero hne]
    rw [Float.read?_hexadecimal hmark (writes_iff.mp hn), hsplit, hvalue]

/-- The digits behind a leading zero are read in base ten. -/
theorem Literal.float_leadingZero (h : Literal .leadingZero cs z) :
    ∃ sign ds w, cs = sign ++ '0' :: ds ∧ Signed 10 sign ds w ∧
      Float.read? cs = some (Double.ofInt w) ∧
        (Double.ofInt w = Double.ofInt z ↔ Double.ofInt z = .infinity (z < 0)) := by
  cases h with
  | @leadingZero sign ds z h =>
    have hz := ne_zero_of_out hout
    obtain ⟨w, hw, hsign, hlarge⟩ := h.ten hout
    have hne : w ≠ 0 := by omega
    have hnat : z.natAbs ≠ 0 := Int.natAbs_ne_zero.mpr hz
    have hplace : z.natAbs.log2 + 2 ≤ w.natAbs.log2 := by
      rw [Nat.le_log2 (Int.natAbs_ne_zero.mpr hne), pow_add]
      have := Nat.log2_self_le hnat
      omega
    refine ⟨sign, ds, w, rfl, hw, hw.zero_cons.float_digits hne, ?_⟩
    rw [Double.ofInt_eq, Double.ofInt_eq, decide_eq_decide.mpr hsign]
    exact Double.ofValue_eq_iff _ hnat hplace

end

theorem octal?_writes {o : Char} (ho : o ∈ ['o', 'O']) {ds : List Char} {n : ℕ} (h : Writes 8 ds n) :
    octal? ('0' :: o :: ds) = if Held n then some (.ofInt n) else none := by
  split
  · rename_i hheld
    rw [octal?_eq_some_iff]
    exact ⟨o, ho, ds, n, rfl, h, toInt_ofInt_held hheld⟩
  · rename_i hout
    cases hread : octal? ('0' :: o :: ds) with
    | none => rfl
    | some i =>
      obtain ⟨_, -, es, m, heq, hm, hi⟩ := octal?_eq_some_iff.mp hread
      cases heq
      rw [writes_iff] at h hm
      rw [← Option.some.inj (h.symm.trans hm)] at hi
      exact absurd (hi ▸ held_toInt i) hout

/-- Digits behind `0o` are an integer if it is held, and no number else. -/
theorem Literal.infer_markedOctal {text : String} {z : ℤ} (h : Literal .markedOctal text.toList z) :
    infer text = if Held z then .integer (.ofInt z) else .string text := by
  obtain ⟨c, hc, hforeign⟩ := h.foreign
  have hinferred := inferred?_foreign hc hforeign
  have hread : octal? text.toList = (if Held z then some (.ofInt z) else none) ∧
      Integer.read? text.toList = none ∧ Float.read? text.toList = none := by
    generalize text.toList = cs at h
    cases h with
    | @markedOctal ds o z h ho =>
      cases h with
      | bare h =>
        exact ⟨octal?_writes ho h, read?_markedOctal (marked_eq_some_iff.mpr ⟨o, ho, rfl⟩)⟩
  obtain ⟨hoctal, hinteger, hfloat⟩ := hread
  rw [infer, hinferred, hoctal, hinteger, hfloat]
  by_cases hheld : Held z
  · rw [if_pos hheld, if_pos hheld]
    rfl
  · rw [if_neg hheld, if_neg hheld]
    rfl

/-- A literal that is not held is what the reader of floats makes of it. -/
theorem Literal.infer_eq_double {form : Form} {text : String} {z : ℤ} {x : Double}
    (h : Literal form text.toList z) (hform : form ≠ .markedOctal) (hout : ¬ Held z)
    (hx : Float.read? text.toList = some x) : infer text = .double x := by
  rw [infer, (h.denotes hform).inferred? h.foreign, if_neg hout, hx]
  rfl

/-- An integer literal is read as its value if a signed 64-bit integer holds it. Else a decimal literal is
the double nearest to its value, and a hexadecimal one is too unless the digits that are lost decide a
tie; the digits behind a leading zero are read in base ten, which is another double but past the range of
doubles; and a literal behind `0o` is a string. The double of an integer is the nearest of all, an infinity
past their range. -/
theorem literal_value {form : Form} {text : String} {z : ℤ} (h : Literal form text.toList z) :
    (Held z → infer text = .integer (.ofInt z)) ∧
    (¬ Held z →
      (form = .decimal → infer text = .double (Double.ofInt z)) ∧
      (form = .hexadecimal →
        infer text = .double (Double.ofInt (z.sign * HexFloat.kept z.natAbs)) ∧
        (infer text = .double (Double.ofInt z) ↔
          ¬ (z.natAbs.log2 < 1024 ∧ HexFloat.LostTie z.natAbs))) ∧
      (form = .leadingZero →
        ∃ sign ds w, text.toList = sign ++ '0' :: ds ∧ Signed 10 sign ds w ∧
          infer text = .double (Double.ofInt w) ∧
          (infer text = .double (Double.ofInt z) ↔ Double.ofInt z = .infinity (z < 0))) ∧
      (form = .markedOctal → infer text = .string text)) ∧
    ∀ w : ℤ, ∃ code, Double.ofInt w = .ofCode (w < 0) code ∧ Double.IsNearest w.natAbs code := by
  rw [← and_assoc]
  refine ⟨?_, Double.ofInt_nearest⟩
  by_cases hform : form = .markedOctal
  · subst hform
    have hread := h.infer_markedOctal
    constructor
    · intro hheld
      rw [hread, if_pos hheld]
    · intro hout
      rw [if_neg hout] at hread
      simp [hread]
  · constructor
    · intro hheld
      rw [infer, (h.denotes hform).inferred? h.foreign, if_pos hheld]
      rfl
    · intro hout
      refine ⟨?_, ?_, ?_, fun hmarked => absurd hmarked hform⟩
      · rintro rfl
        exact h.infer_eq_double hform hout (h.float_decimal hout)
      · rintro rfl
        have hread := h.infer_eq_double hform hout (h.float_hexadecimal hout)
        refine ⟨hread, ?_⟩
        rw [hread, Value.double.injEq, ofInt_kept (ne_zero_of_out hout), Double.ofInt_eq]
        exact HexFloat.ofValue_kept_eq_iff _ _
      · rintro rfl
        obtain ⟨sign, ds, w, heq, hw, hread, hnearest⟩ := h.float_leadingZero hout
        have hten := h.infer_eq_double hform hout hread
        refine ⟨sign, ds, w, heq, hw, hten, ?_⟩
        rw [hten, Value.double.injEq]
        exact hnearest

/-- A hexadecimal literal whose last digit would have decided the tie before it. -/
theorem literal_value_hexadecimal :
    Literal .hexadecimal "-0x20000000000001001".toList (-0x20000000000001001) ∧
    ¬ Held (-0x20000000000001001) ∧
    infer "-0x20000000000001001" = .double (Double.ofInt (-0x20000000000001000)) ∧
    HexFloat.LostTie 0x20000000000001001 ∧
    infer "-0x20000000000001001" ≠ .double (Double.ofInt (-0x20000000000001001)) := by
  have hliteral : Literal .hexadecimal "-0x20000000000001001".toList (-0x20000000000001001) :=
    have hdigits : Writes 16 "20000000000001001".toList 0x20000000000001001 :=
      writes_iff.mpr (by decide +kernel)
    .hexadecimal (.minus hdigits) (List.mem_cons_self (a := 'x'))
  have hout : ¬ Held (-0x20000000000001001) := by decide
  have htie : HexFloat.LostTie 0x20000000000001001 := by decide +kernel
  obtain ⟨hread, hnearest⟩ := ((literal_value hliteral).2.1 hout).2.1 rfl
  have hlost : ¬ infer "-0x20000000000001001" = .double (Double.ofInt (-0x20000000000001001)) :=
    fun h => hnearest.mp h ⟨by decide +kernel, htie⟩
  exact ⟨hliteral, hout, hread, htie, hlost⟩

/-- Octal digits behind a leading zero that are past 63 bits count in base ten, and the last digit of a
long hexadecimal literal does not count at all: neither is read as the double nearest to its value. -/
theorem literals_leave_their_base :
    (Literal .leadingZero "01000000000000000000000".toList (2 ^ 63) ∧
      infer "01000000000000000000000" = .double (Double.ofInt (10 ^ 21)) ∧
      Double.ofInt (10 ^ 21) ≠ Double.ofInt (2 ^ 63)) ∧
    Literal .hexadecimal "0x20000000000001001".toList 0x20000000000001001 ∧
      infer "0x20000000000001001" = .double (Double.ofInt 0x20000000000001000) ∧
      Double.ofInt 0x20000000000001000 ≠ Double.ofInt 0x20000000000001001 := by
  have hoctal : Literal .leadingZero "01000000000000000000000".toList (2 ^ 63) :=
    have hdigits : Writes 8 "1000000000000000000000".toList (2 ^ 63) :=
      writes_iff.mpr (by decide +kernel)
    .leadingZero (.bare hdigits)
  have hhexadecimal : Literal .hexadecimal "0x20000000000001001".toList 0x20000000000001001 :=
    have hdigits : Writes 16 "20000000000001001".toList 0x20000000000001001 :=
      writes_iff.mpr (by decide +kernel)
    .hexadecimal (.bare hdigits) (List.mem_cons_self (a := 'x'))
  have hten : infer "01000000000000000000000" = .double (Double.ofInt (10 ^ 21)) :=
    hoctal.infer_eq_double nofun (by decide) (by decide +kernel)
  have hten_ne : Double.ofInt (10 ^ 21) ≠ Double.ofInt (2 ^ 63) := by decide +kernel
  have hcut : infer "0x20000000000001001" = .double (Double.ofInt 0x20000000000001000) :=
    hhexadecimal.infer_eq_double nofun (by decide) (by decide +kernel)
  have hcut_ne : Double.ofInt 0x20000000000001000 ≠ Double.ofInt 0x20000000000001001 := by
    decide +kernel
  exact ⟨⟨hoctal, hten, hten_ne⟩, hhexadecimal, hcut, hcut_ne⟩

end Integer
end YamlCodec.Scalar
