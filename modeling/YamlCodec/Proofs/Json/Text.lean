import YamlCodec.Json.Read
import YamlCodec.Json.Write
import YamlCodec.Proofs.Lexeme.Quoted

/-!
# JSON strings read back

A character stands between the quotes as it is, or as a letter or a code behind a backslash that is read
as this character. So the first quote behind no backslash is the closing one, and the text before it is
read back whole.
-/

set_option autoImplicit false

namespace YamlCodec.Json
open YamlCodec.Text

theorem fixedHex_four : ∀ n < 0x20, Digit.number? 16 (Digit.fixedHex 4 n) = some n ∧
    (Digit.fixedHex 4 n).length = 4 ∧ CodeUnit.isHigh n = false := by
  decide +kernel

/-- How a character stands in a string. -/
inductive Spelled (c : Char) : List Char → Prop where
  | raw (hquote : c ≠ '"') (hslash : c ≠ '\\') (hcontrol : ¬ c.toNat < 0x20) : Spelled c [c]
  | escape {code : List Char}
      (hread : ∀ rest, readEscape? (code ++ rest) = some (c, code.length)) :
      Spelled c ('\\' :: code)

theorem spelled_letter {c x : Char} (h : letter? x = some c) : Spelled c ['\\', x] :=
  .escape fun rest => by simp [readEscape?, h]

theorem spelled_code {c : Char} (h : c.toNat < 0x20) :
    Spelled c ('\\' :: 'u' :: Digit.fixedHex 4 c.toNat) := by
  obtain ⟨hnumber, hlength, hhigh⟩ := fixedHex_four c.toNat h
  refine .escape fun rest => ?_
  have htake : (Digit.fixedHex 4 c.toNat ++ rest).take 4 = Digit.fixedHex 4 c.toNat := by
    rw [List.take_append_of_le_length (by omega), List.take_of_length_le (by omega)]
  have hcode : CodeUnit.code? 4 (Digit.fixedHex 4 c.toNat ++ rest) = some c.toNat := by
    simp only [CodeUnit.code?, htake, hlength, if_true, hnumber]
  have hletter : letter? 'u' = none := by decide
  rw [List.cons_append, readEscape?, hletter]
  simp [CodeUnit.read?, hcode, hhigh, Lexeme.Quoted.char?_toNat, hlength]

theorem spelled_escape (c : Char) : Spelled c (escape c) := by
  unfold escape
  split
  case h_8 _ hquote hslash _ _ _ _ _ =>
    split
    · exact spelled_code ‹_›
    · exact .raw hquote hslash ‹_›
  all_goals exact spelled_letter (by decide)

theorem readString?_skip (taken code rest : List Char) :
    readString? code.length taken (code ++ rest) = readString? 0 taken rest := by
  induction code with
  | nil => rfl
  | cons x code ih => exact ih

theorem Spelled.read {c : Char} {cs : List Char} (h : Spelled c cs) (taken rest : List Char) :
    readString? 0 taken (cs ++ rest) = readString? 0 (c :: taken) rest := by
  cases h with
  | raw hquote hslash hcontrol =>
    rw [List.singleton_append, readString?]
    simp [hquote, hslash, hcontrol]
  | @escape code hread =>
    rw [List.cons_append, readString?]
    simp [hread, readString?_skip]

/-- Between its quotes a text is read back, whatever comes after the closing one. -/
theorem readString?_escaped (s : List Char) (taken rest : List Char) :
    readString? 0 taken (s.flatMap escape ++ '"' :: rest) =
      some (String.ofList (taken.reverse ++ s), rest) := by
  induction s generalizing taken with
  | nil => simp [readString?]
  | cons c s ih =>
    rw [List.flatMap_cons, List.append_assoc, (spelled_escape c).read, ih]
    simp

end YamlCodec.Json
