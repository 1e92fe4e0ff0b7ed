import YamlCodec.Scalar.Plain
import YamlCodec.Proofs.Scalar.Number

/-!
# Texts of leaves that stay bare

The texts of null, booleans and numbers are safe as plain scalars, so none of them is ever quoted.
-/

set_option autoImplicit false

namespace YamlCodec.Scalar
open YamlCodec.Text YamlCodec.Text.Digit

theorem mem_of_holdsSeparator {cs : List Char} (h : holdsSeparator cs = true) : ':' ∈ cs := by
  induction cs using holdsSeparator.induct with
  | case1 rest => exact List.mem_cons_self
  | case2 c rest hne ih =>
    rw [holdsSeparator] at h
    · exact List.mem_cons_of_mem c (ih h)
    · exact hne
  | case3 => simp [holdsSeparator] at h

/-- Characters of numbers are neither blanks, marks nor unprintable. -/
theorem IsNumeric.ordinary {c : Char} (h : IsNumeric c) :
    (c != ' ' && c != ':' && !isIndicator c && !isUnsafe c) = true :=
  h.elim (P := fun c => (c != ' ' && c != ':' && !isIndicator c && !isUnsafe c) = true)
    (by decide) (by decide)

theorem beginsThrice_false {mark c : Char} (h : c ≠ mark) (cs : List Char) :
    beginsThrice mark (c :: cs) = false := by
  unfold beginsThrice
  split <;> simp_all

theorem Numeric.beginsPlain {cs : List Char} (h : Numeric cs) (negative : Bool) :
    beginsPlain (signed negative cs) = true := by
  obtain ⟨c, rest, rfl, hc⟩ := h.head
  have hord := (IsNumeric.ordinary (.inl hc))
  have hne {x : Char} (hx : ¬ IsDecimal x) : c ≠ x := by
    rintro rfl
    exact hx hc
  have hminus : c ≠ '-' := hne (by decide)
  have hdot : c ≠ '.' := hne (by decide)
  have hmark : c ≠ '?' := hne (by decide)
  simp only [Bool.and_eq_true, bne_iff_ne, ne_eq, Bool.not_eq_true'] at hord
  obtain ⟨⟨⟨hspace, hcolon⟩, hind⟩, _⟩ := hord
  cases negative with
  | false =>
    simp [signed, Scalar.beginsPlain, hspace, hcolon, hind, hminus, hmark,
      beginsThrice_false hminus, beginsThrice_false hdot]
  | true =>
    have hthrice : beginsThrice '-' ('-' :: c :: rest) = false := by
      unfold beginsThrice
      split <;> simp_all
    have hind' : isIndicator '-' = false := by decide
    simp [signed, Scalar.beginsPlain, hspace, hind', hthrice,
      beginsThrice_false (show '-' ≠ '.' by decide)]

theorem Numeric.isPlainSafe {cs : List Char} (h : Numeric cs) (negative : Bool) :
    isPlainSafe (signed negative cs) = true := by
  have hall := h.signed_all negative
  have hend : endsPlain (signed negative cs) = true := by
    have hne : signed negative cs ≠ [] := by
      obtain ⟨c, rest, rfl, _⟩ := h.head
      simp [signed]
    have hlast := (hall _ (List.getLast_mem hne)).ordinary
    rw [endsPlain, List.getLast?_eq_some_getLast hne]
    simp_all
  have hsep : holdsSeparator (signed negative cs) = false := by
    rw [Bool.eq_false_iff]
    exact fun hs => h.not_mem (by decide) negative (mem_of_holdsSeparator hs)
  have hhash : (signed negative cs).contains '#' = false := by
    rw [List.contains_eq_mem, decide_eq_false_iff_not]
    exact h.not_mem (by decide) negative
  have hunsafe : (signed negative cs).any isUnsafe = false := by
    rw [List.any_eq_false]
    intro c hc
    have := (hall c hc).ordinary
    simp_all
  rw [Scalar.isPlainSafe, h.beginsPlain, hend, hsep, hhash, hunsafe]
  rfl

theorem isPlainSafe_integer (i : Int) : isPlainSafe (signedNumeral i) = true := by
  rw [signedNumeral_eq]
  exact (numeric_numeral _).isPlainSafe _

theorem isPlainSafe_double (d : Double) : isPlainSafe (Float.text d) = true := by
  cases d with
  | nan => rfl
  | infinity negative => cases negative <;> rfl
  | finite negative code =>
    obtain ⟨l, d, htext, hw, _⟩ := finite_layout negative code
    rw [htext]
    exact (numeric_layout hw).isPlainSafe negative

end YamlCodec.Scalar
