import YamlCodec.Proofs.Scalar.Keyword
import YamlCodec.Proofs.Text.Case
import YamlCodec.Scalar.Resolve

/-!
# Literals behind a zero and a letter

A zero and a letter of either case mark the base of a number. The readers of integers and of floats
first look for the mark and go on with what stands behind it.
-/

set_option autoImplicit false

namespace YamlCodec.Scalar
open YamlCodec.Text YamlCodec.Text.Word

/-- What stands behind a zero and a letter of either case. -/
def marked (small capital : Char) : List Char → Option (List Char)
  | z :: c :: cs => if z = '0' ∧ (c = small ∨ c = capital) then some cs else none
  | _ => none

section
variable {small capital : Char}

theorem marked_eq_some_iff {cs ds : List Char} :
    marked small capital cs = some ds ↔ ∃ c ∈ [small, capital], cs = '0' :: c :: ds := by
  unfold marked
  split
  · rename_i z c rest
    simp only [Option.ite_none_right_eq_some, Option.some.injEq, List.mem_cons, List.not_mem_nil,
      or_false, List.cons.injEq]
    constructor
    · rintro ⟨⟨hz, hc⟩, hds⟩
      exact ⟨c, hc, hz, rfl, hds⟩
    · rintro ⟨_, hc, hz, rfl, hds⟩
      exact ⟨⟨hz, hc⟩, hds⟩
  · rename_i hshort
    simp only [reduceCtorEq, false_iff]
    rintro ⟨c, -, rfl⟩
    exact hshort _ _ _ rfl

theorem marked_fold (hletter : ∀ c : Char, c.toLower = small ∨ c.toLower = capital ↔
    c = small ∨ c = capital) (cs : List Char) :
    marked small capital (fold cs) = (marked small capital cs).map fold := by
  match cs with
  | [] => rfl
  | [c] => rfl
  | z :: c :: cs =>
    simp only [fold_cons, marked, toLower_eq_iff (c := z) (m := '0') (by decide), hletter]
    split
    · rfl
    · rfl

end

theorem Integer.octal?_eq (cs : List Char) :
    octal? cs = (marked 'o' 'O' cs).bind fun ds => (magnitude? 8 ds).bind (signed? false) := by
  unfold octal?
  split
  · rfl
  · rfl
  · rename_i ho hO
    cases hm : marked 'o' 'O' cs with
    | none => rfl
    | some ds =>
      obtain ⟨c, hc, rfl⟩ := marked_eq_some_iff.mp hm
      simp only [List.mem_cons, List.not_mem_nil, or_false] at hc
      rcases hc with rfl | rfl
      · exact absurd rfl (ho ds)
      · exact absurd rfl (hO ds)

/-- A literal without the mark is octal behind a zero that more follows, and decimal else. -/
theorem Integer.base_eq (cs : List Char) :
    base cs = match marked 'x' 'X' cs with
      | some ds => (16, ds)
      | none => if cs.head? = some '0' ∧ cs.tail ≠ [] then (8, cs.tail) else (10, cs) := by
  unfold base
  split
  · rfl
  · rfl
  · rename_i c rest hx hX
    have hc : ¬ (c = 'x' ∨ c = 'X') := by
      rintro (rfl | rfl)
      · exact hx rfl
      · exact hX rfl
    simp [marked, hc]
  · rename_i hx hX hzero
    cases hm : marked 'x' 'X' cs with
    | some ds =>
      obtain ⟨c, -, rfl⟩ := marked_eq_some_iff.mp hm
      exact absurd rfl (hzero c ds)
    | none =>
      refine (if_neg ?_).symm
      match cs with
      | [] => simp
      | [c] => simp
      | c :: d :: rest =>
        rintro ⟨hc, -⟩
        obtain rfl : c = '0' := by simpa using hc
        exact absurd rfl (hzero d rest)

theorem Float.read?_eq (cs : List Char) :
    read? cs = match marked 'x' 'X' (Sign.split cs).2 with
      | some rest =>
        (HexFloat.read? rest).map fun x => if (Sign.split cs).1 then x.negate else x
      | none =>
        if Word.among ["inf", "infinity"] (Sign.split cs).2 then some (.infinity (Sign.split cs).1)
        else if Word.same "nan".toList (Sign.split cs).2 then some .nan
        else decimal? (Sign.split cs).1 (Sign.split cs).2 := by
  unfold read?
  simp only
  split
  · rename_i heq
    rw [heq]
    rfl
  · rename_i heq
    rw [heq]
    rfl
  · rename_i hx hX
    cases hm : marked 'x' 'X' (Sign.split cs).2 with
    | none => rfl
    | some ds =>
      obtain ⟨c, hc, heq⟩ := marked_eq_some_iff.mp hm
      simp only [List.mem_cons, List.not_mem_nil, or_false] at hc
      rcases hc with rfl | rfl
      · exact absurd heq (hx ds)
      · exact absurd heq (hX ds)

/-- A text with a character that no word has is an integer, a float, or nothing else than a string. -/
theorem inferred?_foreign {cs : List Char} {c : Char} (hc : c ∈ cs)
    (hforeign : c.toLower ∉ Keyword.letters) :
    inferred? cs =
      match Integer.octal? cs with
      | some i => some (.integer i)
      | none =>
        match Integer.read? cs with
        | some i => some (.integer i)
        | none => (Float.read? cs).map .double := by
  rw [inferred?, Keyword.isNull_foreign hc hforeign, Keyword.bool?_foreign hc hforeign,
    Keyword.special?_foreign hc hforeign]
  rfl

/-- A text without the mark that is no word either can only be a decimal number. -/
theorem Float.read?_unmarked {cs : List Char} {c : Char} (hc : c ∈ (Sign.split cs).2)
    (hforeign : c.toLower ∉ Keyword.letters) (hmark : marked 'x' 'X' (Sign.split cs).2 = none) :
    read? cs = decimal? (Sign.split cs).1 (Sign.split cs).2 := by
  have hinf := Keyword.among_foreign hc hforeign ["inf", "infinity"] rfl
  have hnan := Keyword.same_foreign hc hforeign "nan".toList rfl
  rw [read?_eq, hmark]
  simp only
  rw [hinf, hnan]
  rfl

end YamlCodec.Scalar
