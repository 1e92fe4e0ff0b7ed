import YamlCodec.Proofs.Scalar.Mark

/-!
# Letter case of plain scalars

No reader of a scalar tells a text from its folded form: words are compared folded, digits count the
same in either case, and the letters that mark a base or an exponent stand in both. So texts that are
equal up to ASCII case are both strings or the same other value, whatever style and tag they have.
-/

set_option autoImplicit false

namespace YamlCodec.Scalar
open YamlCodec.Text YamlCodec.Text.Word

/-! ## Words -/

theorem Keyword.isNull_fold (cs : List Char) : isNull (fold cs) = isNull cs := by
  have hempty : (fold cs).isEmpty = cs.isEmpty := List.isEmpty_map
  have htilde : (fold cs == ['~']) = (cs == ['~']) := by
    match cs with
    | [] => rfl
    | [c] => simp [toLower_eq_iff (c := c) (m := '~') (by decide)]
    | c :: d :: cs => simp
  rw [isNull, isNull, hempty, htilde, same_fold]

theorem Keyword.isTrue_fold (cs : List Char) : isTrue (fold cs) = isTrue cs := among_fold _ cs

theorem Keyword.bool?_fold (cs : List Char) : bool? (fold cs) = bool? cs := by
  rw [bool?, bool?, isTrue_fold, isFalse, isFalse, among_fold]

theorem Keyword.special?_fold (cs : List Char) : special? (fold cs) = special? cs := by
  rw [special?, special?, among_fold, same_fold, same_fold]

/-! ## Integers -/

theorem marked_hex_fold (cs : List Char) :
    marked 'x' 'X' (fold cs) = (marked 'x' 'X' cs).map fold :=
  marked_fold (toLower_elim (P := fun x c => x = 'x' ∨ x = 'X' ↔ c = 'x' ∨ c = 'X')
    (fun _ => Iff.rfl) (by decide)) cs

theorem marked_octal_fold (cs : List Char) :
    marked 'o' 'O' (fold cs) = (marked 'o' 'O' cs).map fold :=
  marked_fold (toLower_elim (P := fun x c => x = 'o' ∨ x = 'O' ↔ c = 'o' ∨ c = 'O')
    (fun _ => Iff.rfl) (by decide)) cs

namespace Integer

theorem accumulate?_fold (b n : Nat) (cs : List Char) :
    accumulate? b n (fold cs) = accumulate? b n cs := by
  induction cs generalizing n with
  | nil => rfl
  | cons c cs ih =>
    rw [fold_cons, accumulate?, accumulate?, Digit.value?_toLower]
    split
    · rw [ih]
    · rfl

theorem magnitude?_fold (b : Nat) (cs : List Char) : magnitude? b (fold cs) = magnitude? b cs := by
  cases cs with
  | nil => rfl
  | cons c cs => exact accumulate?_fold b 0 (c :: cs)

theorem octal?_fold (cs : List Char) : octal? (fold cs) = octal? cs := by
  rw [octal?_eq, octal?_eq, marked_octal_fold, Option.bind_map]
  simp only [Function.comp_apply, magnitude?_fold]

theorem base_fold (cs : List Char) : base (fold cs) = ((base cs).1, fold (base cs).2) := by
  have hhead : (fold cs).head? = some '0' ↔ cs.head? = some '0' := by
    cases cs with
    | nil => rfl
    | cons c cs => simp [toLower_eq_iff (c := c) (m := '0') (by decide)]
  have htail : (fold cs).tail = fold cs.tail := (List.map_tail).symm
  have hnil : fold cs.tail ≠ [] ↔ cs.tail ≠ [] := not_congr List.map_eq_nil_iff
  rw [base_eq, base_eq, marked_hex_fold, htail]
  cases marked 'x' 'X' cs with
  | some ds => rfl
  | none =>
    simp only [Option.map_none, hhead, hnil]
    split
    · rfl
    · rfl

theorem read?_fold (cs : List Char) : read? (fold cs) = read? cs := by
  simp only [read?, Sign.split_fold, base_fold, magnitude?_fold]

end Integer

/-! ## Floats -/

namespace HexFloat

theorem digits?_fold (x : Double) (cs : List Char) : digits? x (fold cs) = digits? x cs := by
  induction cs generalizing x with
  | nil => rfl
  | cons c cs ih =>
    rw [fold_cons, digits?, digits?, Digit.value?_toLower]
    split
    · exact ih _
    · rfl

/-- A separator that does not tell cases apart cuts a folded text at the same place. -/
theorem cutAt_fold {separator : Char → Bool} (hs : ∀ c : Char, separator c.toLower = separator c)
    (cs : List Char) :
    cutAt separator (fold cs) =
      (fold (cutAt separator cs).1, (cutAt separator cs).2.map fold) := by
  induction cs with
  | nil => rfl
  | cons c cs ih =>
    rw [fold_cons, cutAt, cutAt, hs]
    split
    · rfl
    · rw [ih]
      rfl

theorem power?_fold (cs : Option (List Char)) : power? (cs.map fold) = power? cs := by
  cases cs with
  | none => rfl
  | some cs => simp only [Option.map_some, power?, Sign.split_fold, Digit.number?_fold]

theorem cutAt_power_fold (cs : List Char) :
    cutAt (fun c => c == 'p' || c == 'P') (fold cs) =
      (fold (cutAt (fun c => c == 'p' || c == 'P') cs).1,
        (cutAt (fun c => c == 'p' || c == 'P') cs).2.map fold) :=
  cutAt_fold (toLower_elim (P := fun x c => (x == 'p' || x == 'P') = (c == 'p' || c == 'P'))
    (fun _ => rfl) (by decide)) cs

theorem cutAt_point_fold (cs : List Char) :
    cutAt (· == '.') (fold cs) = (fold (cutAt (· == '.') cs).1, (cutAt (· == '.') cs).2.map fold) :=
  cutAt_fold (toLower_elim (P := fun x c => (x == '.') = (c == '.')) (fun _ => rfl) (by decide)) cs

theorem read?_fold (cs : List Char) : read? (fold cs) = read? cs := by
  have hgetD (o : Option (List Char)) : (o.map fold).getD [] = fold (o.getD []) := by
    cases o <;> rfl
  have hempty (ds : List Char) : (fold ds).isEmpty = ds.isEmpty := List.isEmpty_map
  simp only [read?, cutAt_power_fold, cutAt_point_fold, hgetD, hempty, length_fold, ← fold_append,
    digits?_fold, power?_fold]

end HexFloat

namespace Float

theorem exponent?_fold (cs : List Char) : exponent? (fold cs) = exponent? cs := by
  cases cs with
  | nil => rfl
  | cons c cs =>
    have hletter : (c.toLower == 'e' || c.toLower == 'E') = (c == 'e' || c == 'E') :=
      toLower_elim (P := fun x c => (x == 'e' || x == 'E') = (c == 'e' || c == 'E'))
        (fun _ => rfl) (by decide) c
    simp only [fold_cons, exponent?, hletter, Sign.split_fold, Digit.number?_fold]

/-- The digits behind a point and what follows them; without a point there are none. -/
def fraction : List Char → List Char × List Char
  | '.' :: rest => Digit.span 10 rest
  | rest => ([], rest)

theorem fraction_fold (cs : List Char) :
    fraction (fold cs) = (fold (fraction cs).1, fold (fraction cs).2) := by
  match cs with
  | [] => rfl
  | c :: cs =>
    by_cases hc : c = '.'
    · subst hc
      exact Digit.span_fold 10 cs
    · have hc' : c.toLower ≠ '.' := mt (toLower_eq_iff (by decide)).mp hc
      simp [fraction, hc, hc']

theorem decimal?_eq (negative : Bool) (cs : List Char) :
    decimal? negative cs =
      match Digit.number? 10 ((Digit.span 10 cs).1 ++ (fraction (Digit.span 10 cs).2).1),
        exponent? (fraction (Digit.span 10 cs).2).2 with
      | some digits, some exponent => some (Double.ofDecimal negative digits
          (exponent - (fraction (Digit.span 10 cs).2).1.length))
      | _, _ => none := rfl

theorem decimal?_fold (negative : Bool) (cs : List Char) :
    decimal? negative (fold cs) = decimal? negative cs := by
  simp only [decimal?_eq, Digit.span_fold, fraction_fold, ← fold_append, Digit.number?_fold,
    exponent?_fold, length_fold]

theorem read?_fold (cs : List Char) : read? (fold cs) = read? cs := by
  rw [read?_eq, read?_eq, Sign.split_fold, marked_hex_fold]
  simp only [among_fold, same_fold, decimal?_fold]
  cases marked 'x' 'X' (Sign.split cs).2 with
  | none => rfl
  | some rest => simp only [Option.map_some, HexFloat.read?_fold]

end Float

/-! ## Values -/

theorem inferred?_fold (cs : List Char) : inferred? (fold cs) = inferred? cs := by
  simp only [inferred?, Keyword.isNull_fold, Keyword.bool?_fold, Keyword.special?_fold,
    Integer.octal?_fold, Integer.read?_fold, Float.read?_fold]

/-- What is inferred is never a string: strings are what is left over. -/
theorem inferred?_ne_string {cs : List Char} {v : Value} (h : inferred? cs = some v) (t : String) :
    v ≠ .string t := by
  rintro rfl
  unfold inferred? at h
  split at h
  · cases h
  split at h
  · cases h
  split at h
  · cases h
  split at h
  · cases h
  split at h
  · cases h
  · simp at h

/-- A core tag goes first, then quotes, and then what the text is inferred to be. -/
theorem resolve_eq (text : String) (style : Style) (tag : Option String) :
    resolve text style tag =
      ((tag.bind fun t => CoreTag.named? t.toList).bind fun t => t.value? text).getD
        (if style.isQuoted then .string text else infer text) := by
  unfold resolve
  cases (tag.bind fun t => CoreTag.named? t.toList).bind fun t => t.value? text with
  | none => rfl
  | some v => rfl

/-- Two texts are read alike: both as the strings that they are, or both as one value that is no
string. -/
def ReadAlike (read : String → Value) (a b : String) : Prop :=
  (read a = .string a ∧ read b = .string b) ∨ (read a = read b ∧ ∀ t, read a ≠ .string t)

section
variable {a b : String}

/-- A rule that gives both texts the same value, and never a string, may go before a reader. -/
theorem ReadAlike.rule (rule : String → Option Value) {read : String → Value}
    (hsame : rule a = rule b) (hstring : ∀ t, rule a ≠ some (.string t)) (hread : ReadAlike read a b) :
    ReadAlike (fun t => (rule t).getD (read t)) a b := by
  cases ha : rule a with
  | none =>
    have hb : rule b = none := hsame ▸ ha
    simpa [ReadAlike, ha, hb] using hread
  | some v =>
    have hb : rule b = some v := hsame ▸ ha
    right
    constructor
    · simp [ha, hb]
    · intro t ht
      apply hstring t
      rw [ha]
      exact congrArg some (by simpa [ha] using ht)

variable (h : Word.same a.toList b.toList = true)
include h

/-- What does not tell a text from its folded form does not tell texts that are equal up to case. -/
theorem eq_of_same {α : Type} {f : List Char → α} (hf : ∀ cs, f (fold cs) = f cs) :
    f a.toList = f b.toList := by
  calc f a.toList = f (fold a.toList) := (hf _).symm
    _ = f (fold b.toList) := congrArg f (beq_iff_eq.mp h)
    _ = f b.toList := hf _

theorem infer_alike : ReadAlike infer a b := by
  have hstring (t : String) : inferred? a.toList ≠ some (.string t) :=
    fun hv => inferred?_ne_string hv t rfl
  exact ReadAlike.rule (fun t => inferred? t.toList) (eq_of_same h inferred?_fold) hstring
    (.inl ⟨rfl, rfl⟩)

theorem untagged_alike (style : Style) :
    ReadAlike (fun t => if style.isQuoted then .string t else infer t) a b := by
  cases style.isQuoted with
  | true => exact .inl ⟨rfl, rfl⟩
  | false => exact infer_alike h

theorem tagged_alike (tag : CoreTag) {read : String → Value} (hread : ReadAlike read a b) :
    ReadAlike (fun t => (tag.value? t).getD (read t)) a b := by
  cases tag with
  | null => exact ReadAlike.rule _ rfl nofun hread
  | bool =>
    have hsame := eq_of_same h Keyword.isTrue_fold
    exact ReadAlike.rule _ (by simp only [CoreTag.value?, hsame]) nofun hread
  | int =>
    have hsame := eq_of_same h Integer.read?_fold
    exact ReadAlike.rule _ (by simp only [CoreTag.value?, hsame]) (by simp [CoreTag.value?]) hread
  | float =>
    have hsame := eq_of_same h Float.read?_fold
    exact ReadAlike.rule _ (by simp only [CoreTag.value?, hsame]) (by simp [CoreTag.value?]) hread
  | str => exact .inl ⟨rfl, rfl⟩

/-- Texts that are equal up to ASCII case are read alike without a tag or quotes, and with any style
and tag. -/
theorem case_never_matters :
    ReadAlike infer a b ∧
    ∀ (style : Style) (tag : Option String), ReadAlike (fun t => resolve t style tag) a b := by
  constructor
  · exact infer_alike h
  · intro style tag
    simp only [resolve_eq]
    cases tag.bind fun t => CoreTag.named? t.toList with
    | none => exact untagged_alike h style
    | some t => exact tagged_alike h t (untagged_alike h style)

end

/-- The mark of the base and the digits of one number in two spellings. -/
theorem case_never_matters_hex :
    Word.same "-0XaBp+3".toList "-0xAbP+3".toList = true ∧
    ReadAlike infer "-0XaBp+3" "-0xAbP+3" ∧
    ∀ (style : Style) (tag : Option String),
      ReadAlike (fun t => resolve t style tag) "-0XaBp+3" "-0xAbP+3" :=
  ⟨by decide, case_never_matters (by decide)⟩

end YamlCodec.Scalar
