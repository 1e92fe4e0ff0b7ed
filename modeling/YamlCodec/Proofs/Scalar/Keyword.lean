import YamlCodec.Scalar.Keyword

/-!
# Texts that are no words

Words are written with few characters. A text that holds any other, a digit or a blank for instance, is
none of them, so it is neither null, a boolean, nor a special number.
-/

set_option autoImplicit false

namespace YamlCodec.Scalar.Keyword
open YamlCodec.Text

/-- The characters of all words for null, booleans and numbers. -/
def letters : List Char := "~aefilnorstuy.+-".toList

/-- A text that holds what no character of a word is folded to is not this word. -/
theorem same_false_of_mem {w cs : List Char} {c : Char} (hc : c ∈ cs)
    (hw : ∀ x ∈ w, x.toLower ≠ c.toLower) : Word.same w cs = false := by
  rw [Word.same, beq_eq_false_iff_ne]
  intro heq
  have hm : c.toLower ∈ Word.fold cs := List.mem_map_of_mem hc
  rw [← heq] at hm
  obtain ⟨x, hx, heq⟩ := List.mem_map.mp hm
  exact hw x hx heq

section
variable {cs : List Char} {c : Char} (hc : c ∈ cs) (hforeign : c.toLower ∉ letters)
include hc hforeign

theorem same_foreign (w : List Char) (hw : (w.all fun x => letters.contains x.toLower) = true) :
    Word.same w cs = false := by
  apply same_false_of_mem hc
  intro x hx heq
  have hmem := List.all_eq_true.mp hw x hx
  rw [heq] at hmem
  exact hforeign (List.contains_iff_mem.mp hmem)

theorem among_foreign (words : List String)
    (hw : (words.all fun w => w.toList.all fun x => letters.contains x.toLower) = true) :
    Word.among words cs = false := by
  rw [Word.among, List.any_eq_false]
  intro w hm
  rw [same_foreign hc hforeign w.toList (List.all_eq_true.mp hw w hm)]
  decide

theorem isNull_foreign : isNull cs = false := by
  have hword := same_foreign hc hforeign "null".toList rfl
  have htilde : cs ≠ ['~'] := by
    rintro rfl
    obtain rfl := List.mem_singleton.mp hc
    exact hforeign (by decide)
  have hempty : cs.isEmpty = false := List.isEmpty_eq_false_iff.mpr (List.ne_nil_of_mem hc)
  rw [isNull, hword, hempty, beq_eq_false_iff_ne.mpr htilde]
  rfl

theorem bool?_foreign : bool? cs = none := by
  have htrue := among_foreign hc hforeign ["true", "yes", "on"] rfl
  have hfalse := among_foreign hc hforeign ["false", "no", "off"] rfl
  simp [bool?, isTrue, isFalse, htrue, hfalse]

theorem special?_foreign : special? cs = none := by
  have hplus := among_foreign hc hforeign [".inf", "+.inf"] rfl
  have hminus := same_foreign hc hforeign "-.inf".toList rfl
  have hnan := same_foreign hc hforeign ".nan".toList rfl
  rw [special?, hplus, hminus, hnan]
  rfl

end
end YamlCodec.Scalar.Keyword
