import Mathlib
import YamlCodec.Text.Digit
import YamlCodec.Text.Sign
import YamlCodec.Text.Word

/-!
# ASCII case

Folding moves only the twenty-six capitals, so no digit, sign or mark comes or goes with it: the value
of a digit is that of its folded form, and a text is split at the same places before and after.
-/

set_option autoImplicit false

namespace YamlCodec.Text

namespace Word

/-- A character that folding changes is an ASCII capital. -/
theorem toLower_eq_self_or (c : Char) : c.toLower = c ∨ ∃ k < 26, c = Char.ofNat (65 + k) := by
  by_cases h : c.isUpper
  · right
    simp only [Char.isUpper, decide_eq_true_eq] at h
    have hl : 65 ≤ c.toNat := h.1
    have hu : c.toNat ≤ 90 := h.2
    exact ⟨c.toNat - 65, by omega, by rw [Nat.add_sub_cancel' hl, Char.ofNat_toNat]⟩
  · exact .inl (Char.toLower_eq_of_not_isUpper h)

/-- What holds of each character beside itself and of each capital beside its small letter holds of
every character beside its folded form. -/
theorem toLower_elim {P : Char → Char → Prop} (hself : ∀ c, P c c)
    (hcapital : ∀ k < 26, P (Char.ofNat (65 + k)).toLower (Char.ofNat (65 + k))) (c : Char) :
    P c.toLower c := by
  rcases toLower_eq_self_or c with h | ⟨k, hk, rfl⟩
  · rw [h]
    exact hself c
  · exact hcapital k hk

/-- A character that is no letter is the folded form of itself alone. -/
theorem toLower_eq_iff {c m : Char} (hm : m.isAlpha = false) : c.toLower = m ↔ c = m := by
  have hc (h : c.toLower = m ∨ c = m) : c.isAlpha = false := by
    rcases h with rfl | rfl
    · rwa [Char.isAlpha_toLower_eq_isAlpha] at hm
    · exact hm
  have hself (h : c.isAlpha = false) : c.toLower = c := by
    apply Char.toLower_eq_of_not_isUpper
    intro hupper
    simp [Char.isAlpha, hupper] at h
  constructor
  · intro h
    rw [← hself (hc (.inl h)), h]
  · intro h
    rw [hself (hc (.inr h)), h]

@[simp]
theorem fold_nil : fold [] = [] := rfl

@[simp]
theorem fold_cons (c : Char) (cs : List Char) : fold (c :: cs) = c.toLower :: fold cs := rfl

@[simp]
theorem length_fold (cs : List Char) : (fold cs).length = cs.length := List.length_map _

theorem fold_append (xs ys : List Char) : fold (xs ++ ys) = fold xs ++ fold ys := List.map_append

theorem fold_fold (cs : List Char) : fold (fold cs) = fold cs := by
  simp [fold]

theorem same_fold (w cs : List Char) : same w (fold cs) = same w cs := by
  rw [same, same, fold_fold]

theorem among_fold (words : List String) (cs : List Char) : among words (fold cs) = among words cs := by
  simp only [among, same_fold]

/-- A text is one of the words just if its folded form is one of the folded words. -/
theorem among_iff {words : List String} {cs : List Char} :
    among words cs = true ↔ fold cs ∈ words.map fun w => fold w.toList := by
  simp only [among, List.any_eq_true, same, beq_iff_eq, List.mem_map]

end Word

open Word

theorem Sign.split_fold (cs : List Char) : split (fold cs) = ((split cs).1, fold (split cs).2) := by
  cases cs with
  | nil => rfl
  | cons c cs =>
    by_cases hplus : c = '+'
    · subst hplus
      rfl
    by_cases hminus : c = '-'
    · subst hminus
      rfl
    have hplus' : c.toLower ≠ '+' := mt (toLower_eq_iff (by decide)).mp hplus
    have hminus' : c.toLower ≠ '-' := mt (toLower_eq_iff (by decide)).mp hminus
    simp [split, hplus, hminus, hplus', hminus']

namespace Digit

theorem hexValue?_toLower (c : Char) : hexValue? c.toLower = hexValue? c :=
  toLower_elim (P := fun x c => hexValue? x = hexValue? c) (fun _ => rfl) (by decide) c

section
variable (base : Nat)

theorem value?_toLower (c : Char) : value? base c.toLower = value? base c := by
  rw [value?, value?, hexValue?_toLower]

theorem run?_fold (n : Nat) (cs : List Char) : run? base n (fold cs) = run? base n cs := by
  induction cs generalizing n with
  | nil => rfl
  | cons c cs ih =>
    rw [fold_cons, run?, run?, value?_toLower]
    split
    · exact ih _
    · rfl

theorem number?_fold (cs : List Char) : number? base (fold cs) = number? base cs := by
  cases cs with
  | nil => rfl
  | cons c cs => exact run?_fold base 0 (c :: cs)

theorem span_fold (cs : List Char) :
    span base (fold cs) = (fold (span base cs).1, fold (span base cs).2) := by
  induction cs with
  | nil => rfl
  | cons c cs ih =>
    rw [fold_cons, span, span, value?_toLower]
    split
    · rw [ih]
      rfl
    · rfl

end
end Digit
end YamlCodec.Text
