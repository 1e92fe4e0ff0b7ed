import YamlCodec.Proofs.Scalar.Number

/-!
# Texts with a blank in them

No keyword and no number has a blank in it, and no reader of numbers skips one. So a text with a blank
in it is a string.
-/

set_option autoImplicit false

namespace YamlCodec.Scalar
open YamlCodec.Text YamlCodec.Text.Digit

theorem blank_foreign : ' '.toLower ∉ Keyword.letters := by decide

section
variable {cs : List Char} (h : ' ' ∈ cs)
include h

theorem split_spaced : ' ' ∈ (Sign.split cs).2 := by
  unfold Sign.split
  split <;> simp_all

/-! ## Integers -/

theorem magnitude?_spaced {base : Nat} (hb : value? base ' ' = none) :
    Integer.magnitude? base cs = none := by
  unfold Integer.magnitude?
  split
  · simp at h
  · exact accumulate?_none h hb

theorem octal?_spaced : Integer.octal? cs = none := by
  have hnone : value? 8 ' ' = none := by decide
  unfold Integer.octal?
  split
  · rw [magnitude?_spaced (by simpa using h) hnone]
    rfl
  · rw [magnitude?_spaced (by simpa using h) hnone]
    rfl
  · rfl

theorem base_spaced :
    ' ' ∈ (Integer.base cs).2 ∧ value? (Integer.base cs).1 ' ' = none := by
  have hnone : value? 16 ' ' = none ∧ value? 8 ' ' = none ∧ value? 10 ' ' = none := by decide
  unfold Integer.base
  split <;> simp_all

theorem integer_spaced : Integer.read? cs = none := by
  obtain ⟨hmem, hnone⟩ := base_spaced (split_spaced h)
  unfold Integer.read?
  simp only
  rw [magnitude?_spaced hmem hnone]
  rfl

/-! ## Floats -/

theorem run?_spaced (n : Nat) : run? 10 n cs = none := by
  have hnone : value? 10 ' ' = none := by decide
  induction cs generalizing n with
  | nil => simp at h
  | cons c cs ih =>
    rw [run?]
    rcases List.mem_cons.mp h with rfl | h
    · rw [hnone]
    · split
      · exact ih h _
      · rfl

theorem number?_spaced : number? 10 cs = none := by
  unfold number?
  split
  · simp at h
  · exact run?_spaced h 0

/-- A blank is no digit, so a run of digits leaves it behind. -/
theorem span_spaced : ' ' ∈ (span 10 cs).2 := by
  have hnone : value? 10 ' ' = none := by decide
  induction cs with
  | nil => simp at h
  | cons c cs ih =>
    rw [span]
    split
    · rename_i hc
      rcases List.mem_cons.mp h with rfl | h
      · rw [hnone] at hc
        simp at hc
      · exact ih h
    · exact h

theorem exponent?_spaced : Float.exponent? cs = none := by
  unfold Float.exponent?
  split
  · simp at h
  · split
    · rename_i c cs hc
      have hne : ' ' ≠ c := by
        rintro rfl
        simp at hc
      have hmem := split_spaced ((List.mem_cons.mp h).resolve_left hne)
      simp only
      rw [number?_spaced hmem]
      rfl
    · rfl

theorem decimal?_spaced (negative : Bool) : Float.decimal? negative cs = none := by
  have hwhole := span_spaced h
  unfold Float.decimal?
  simp only
  split
  · -- digits and an exponent were read, but the blank is in the exponent or before it
    rename_i hexponent
    split at hexponent
    · rename_i rest heq
      rw [heq] at hwhole
      have hfraction := span_spaced (show ' ' ∈ rest by simpa using hwhole)
      rw [exponent?_spaced hfraction] at hexponent
      simp at hexponent
    · rw [exponent?_spaced hwhole] at hexponent
      simp at hexponent
  · rfl

/-- What is cut at another character keeps the blank on one of its sides. -/
theorem cutAt_spaced (separator : Char → Bool) (hs : separator ' ' = false) :
    ' ' ∈ (HexFloat.cutAt separator cs).1 ∨
      ∃ rest, (HexFloat.cutAt separator cs).2 = some rest ∧ ' ' ∈ rest := by
  induction cs with
  | nil => simp at h
  | cons c cs ih =>
    rw [HexFloat.cutAt]
    rcases List.mem_cons.mp h with rfl | h
    · rw [hs]
      exact .inl List.mem_cons_self
    · split
      · exact .inr ⟨cs, rfl, h⟩
      · exact (ih h).imp (List.mem_cons_of_mem c) id

theorem digits?_spaced (x : Double) : HexFloat.digits? x cs = none := by
  have hnone : value? 16 ' ' = none := by decide
  induction cs generalizing x with
  | nil => simp at h
  | cons c cs ih =>
    rw [HexFloat.digits?]
    rcases List.mem_cons.mp h with rfl | h
    · rw [hnone]
    · split
      · exact ih h _
      · rfl

theorem power?_spaced : HexFloat.power? (some cs) = none := by
  unfold HexFloat.power?
  simp only
  rw [number?_spaced (split_spaced h)]

theorem hexFloat_spaced : HexFloat.read? cs = none := by
  unfold HexFloat.read?
  simp only
  split
  · rfl
  · split
    · rfl
    · rcases cutAt_spaced h (fun c => c == 'p' || c == 'P') (by decide) with
        hmantissa | ⟨rest, hrest, hpower⟩
      · have hdigits : ' ' ∈
            (HexFloat.cutAt (· == '.') (HexFloat.cutAt (fun c => c == 'p' || c == 'P') cs).1).1 ++
              (HexFloat.cutAt (· == '.')
                (HexFloat.cutAt (fun c => c == 'p' || c == 'P') cs).1).2.getD [] := by
          rcases cutAt_spaced hmantissa (· == '.') (by decide) with hw | ⟨rest, hrest, hf⟩
          · exact List.mem_append_left _ hw
          · rw [hrest]
            exact List.mem_append_right _ hf
        rw [digits?_spaced hdigits]
      · rw [hrest, power?_spaced hpower]
        split
        · rename_i heq
          simp at heq
        · rfl

theorem float_spaced : Float.read? cs = none := by
  have hbody := split_spaced h
  cases hmark : marked 'x' 'X' (Sign.split cs).2 with
  | none =>
    rw [Float.read?_unmarked hbody blank_foreign hmark]
    exact decimal?_spaced hbody _
  | some rest =>
    have hrest : ' ' ∈ rest := by
      obtain ⟨x, hx, heq⟩ := marked_eq_some_iff.mp hmark
      simp only [List.mem_cons, List.not_mem_nil, or_false] at hx
      rw [heq] at hbody
      rcases hx with rfl | rfl
      · simpa using hbody
      · simpa using hbody
    rw [Float.read?_eq, hmark]
    simp only
    rw [hexFloat_spaced hrest]
    rfl

theorem inferred?_spaced : inferred? cs = none := by
  rw [inferred?_foreign h blank_foreign, octal?_spaced h, integer_spaced h, float_spaced h]
  rfl

end

theorem infer_spaced {text : String} (h : ' ' ∈ text.toList) : infer text = .string text := by
  rw [infer, inferred?_spaced h]
  rfl

end YamlCodec.Scalar
