import YamlCodec.Proofs.Scalar.Case
import YamlCodec.Proofs.Scalar.Radix
import YamlCodec.Scalar.Plain

/-!
# The rules for plain scalars

A plain scalar is what the first of six rules reads it as, or else a string. Three of the rules know a
few words each, one knows the octal digits behind `0o`, and no other rule reads any of these. Every
integer is a float too. So the order of the rules matters between integers and floats alone, and a
string needs quotes just if some rule reads its text.
-/

set_option autoImplicit false

namespace YamlCodec.Scalar
open YamlCodec.Text YamlCodec.Text.Word

namespace Keyword

theorem isNull_eq_among (cs : List Char) : isNull cs = among ["", "~", "null"] cs := by
  have hempty : same [] cs = cs.isEmpty := by
    cases cs <;> rfl
  have htilde : same ['~'] cs = (cs == ['~']) := by
    rw [Bool.eq_iff_iff, same, beq_iff_eq, beq_iff_eq]
    cases cs with
    | nil => simp [fold]
    | cons c cs =>
      have hc : '~' = c.toLower ↔ c = '~' := eq_comm.trans (toLower_eq_iff (by decide))
      simp [fold, hc]
  simp [isNull, among, hempty, htilde, Bool.or_assoc]

theorem isSome_bool? (cs : List Char) :
    (bool? cs).isSome = among ["true", "yes", "on", "false", "no", "off"] cs := by
  have hsplit : among ["true", "yes", "on", "false", "no", "off"] cs =
      (isTrue cs || isFalse cs) := by
    simp [among, isTrue, isFalse, Bool.or_assoc]
  rw [hsplit, bool?]
  cases isTrue cs with
  | true => rfl
  | false => cases isFalse cs <;> rfl

theorem isSome_special? (cs : List Char) :
    (special? cs).isSome = among [".inf", "+.inf", "-.inf", ".nan"] cs := by
  have hsplit : among [".inf", "+.inf", "-.inf", ".nan"] cs =
      (among [".inf", "+.inf"] cs || (same "-.inf".toList cs || same ".nan".toList cs)) := by
    simp [among, Bool.or_assoc]
  rw [hsplit, special?]
  cases among [".inf", "+.inf"] cs with
  | true => rfl
  | false =>
    cases same "-.inf".toList cs with
    | true => rfl
    | false => cases same ".nan".toList cs <;> rfl

end Keyword

/-- What a plain scalar may be read as instead of a string. -/
inductive Rule where
  | null
  | bool
  | special
  | octal
  | integer
  | float
  deriving DecidableEq

namespace Rule

/-- The rules in the order in which they are tried. -/
def all : List Rule := [null, bool, special, octal, integer, float]

/-- The value that a rule gives a text, if it reads it. -/
def value? (rule : Rule) (cs : List Char) : Option Value :=
  match rule with
  | null => if Keyword.isNull cs then some .null else none
  | bool => (Keyword.bool? cs).map .bool
  | special => (Keyword.special? cs).map .double
  | octal => (Integer.octal? cs).map .integer
  | integer => (Integer.read? cs).map .integer
  | float => (Float.read? cs).map .double

/-- The value by the first of the rules that reads a text. -/
def first? (rules : List Rule) (cs : List Char) : Option Value :=
  rules.findSome? fun rule => rule.value? cs

theorem mem_all (rule : Rule) : rule ∈ all := by
  cases rule <;> decide

theorem first?_all (cs : List Char) : first? all cs = inferred? cs := by
  simp only [first?, all, List.findSome?, value?, inferred?]
  cases Keyword.isNull cs with
  | true => rfl
  | false =>
    cases Keyword.bool? cs with
    | some b => rfl
    | none =>
      cases Keyword.special? cs with
      | some x => rfl
      | none =>
        cases Integer.octal? cs with
        | some i => rfl
        | none =>
          cases Integer.read? cs with
          | some i => rfl
          | none => cases Float.read? cs <;> rfl

theorem value?_fold (rule : Rule) (cs : List Char) : rule.value? (fold cs) = rule.value? cs := by
  cases rule with
  | null => rw [value?, value?, Keyword.isNull_fold]
  | bool => rw [value?, value?, Keyword.bool?_fold]
  | special => rw [value?, value?, Keyword.special?_fold]
  | octal => rw [value?, value?, Integer.octal?_fold]
  | integer => rw [value?, value?, Integer.read?_fold]
  | float => rw [value?, value?, Float.read?_fold]

/-! ## Words -/

/-- The words that a rule knows; the rules for numbers know none. -/
def words : Rule → List String
  | null => ["", "~", "null"]
  | bool => ["true", "yes", "on", "false", "no", "off"]
  | special => [".inf", "+.inf", "-.inf", ".nan"]
  | _ => []

theorem isSome_null (cs : List Char) : (null.value? cs).isSome = Keyword.isNull cs := by
  rw [value?]
  cases Keyword.isNull cs <;> rfl

/-- The rules that know words read nothing else. -/
theorem isSome_words {rule : Rule} (hrule : rule.words ≠ []) (cs : List Char) :
    (rule.value? cs).isSome = among rule.words cs := by
  cases rule with
  | null => rw [isSome_null, words, Keyword.isNull_eq_among]
  | bool => rw [value?, words, Option.isSome_map, Keyword.isSome_bool?]
  | special => rw [value?, words, Option.isSome_map, Keyword.isSome_special?]
  | octal => exact absurd rfl hrule
  | integer => exact absurd rfl hrule
  | float => exact absurd rfl hrule

/-- No other rule reads a text that a rule reads as a word. -/
theorem value?_eq_none_of_word {rule other : Rule} {cs : List Char} (hword : among rule.words cs = true)
    (hother : other ≠ rule) : other.value? cs = none := by
  have hall : ∀ rule ∈ all, ∀ w ∈ rule.words.map fun w => fold w.toList, ∀ other ∈ all,
      other ≠ rule → (other.value? w).isNone = true := by
    decide
  rw [← value?_fold, ← Option.isNone_iff_eq_none]
  exact hall rule (mem_all rule) _ (among_iff.mp hword) other (mem_all other) hother

/-! ## Numbers -/

/-- Octal digits behind their mark are neither an integer nor a float. -/
theorem number_eq_none_of_octal {cs : List Char} (h : (octal.value? cs).isSome) :
    integer.value? cs = none ∧ float.value? cs = none := by
  have hmark : marked 'o' 'O' cs ≠ none := by
    intro hnone
    simp [value?, Integer.octal?_eq, hnone] at h
  obtain ⟨ds, hds⟩ := Option.ne_none_iff_exists'.mp hmark
  obtain ⟨hinteger, hfloat⟩ := read?_markedOctal hds
  rw [value?, value?, hinteger, hfloat]
  exact ⟨rfl, rfl⟩

/-- What a rule reads that is neither for integers nor for floats, no other rule reads. -/
theorem value?_eq_none {rule other : Rule} {cs : List Char} (hrule : rule ∉ [integer, float])
    (h : (rule.value? cs).isSome) (hne : other ≠ rule) : other.value? cs = none := by
  -- of the rules without words only the one for marked digits is left, and its mark tells it apart
  by_cases hwords : rule.words = []
  · obtain rfl : rule = octal := by
      cases rule <;> simp [words] at hwords hrule ⊢
    obtain ⟨hinteger, hfloat⟩ := number_eq_none_of_octal h
    have hword (hknown : other.words ≠ []) : other.value? cs = none := by
      by_contra hsome
      have hread := Option.isSome_iff_ne_none.mpr hsome
      rw [isSome_words hknown] at hread
      rw [value?_eq_none_of_word hread hne.symm] at h
      cases h
    cases other with
    | null => exact hword nofun
    | bool => exact hword nofun
    | special => exact hword nofun
    | octal => exact absurd rfl hne
    | integer => exact hinteger
    | float => exact hfloat
  · rw [isSome_words hwords] at h
    exact value?_eq_none_of_word h hne

/-- Two rules that read the same text are those for integers and floats. -/
theorem numbers_of_two {rule other : Rule} {cs : List Char} (hne : other ≠ rule)
    (hrule : (rule.value? cs).isSome) (hother : (other.value? cs).isSome) :
    rule ∈ [integer, float] ∧ other ∈ [integer, float] := by
  constructor
  · by_contra h
    rw [value?_eq_none h hrule hne] at hother
    cases hother
  · by_contra h
    rw [value?_eq_none h hother hne.symm] at hrule
    cases hrule

/-- Every integer is a float too. -/
theorem isSome_float_of_integer {cs : List Char} (h : (Integer.read? cs).isSome) :
    (Float.read? cs).isSome := by
  obtain ⟨i, hi⟩ := Option.isSome_iff_exists.mp h
  obtain ⟨n, hn, -⟩ := Integer.denotes_iff.mp (Integer.read?_eq_some_iff.mp hi)
  have hdigits {m : ℕ} (hm : Digit.Writes 10 (Sign.split cs).2 m) : (Float.read? cs).isSome := by
    rw [Float.read?_digits (Digit.writes_iff.mp hm)]
    rfl
  generalize hbody : (Sign.split cs).2 = body at hn hdigits
  cases hn with
  | hexadecimal hx hn =>
    have hmark := marked_eq_some_iff.mpr ⟨_, hx, hbody⟩
    rw [Float.read?_hexadecimal hmark (Digit.writes_iff.mp hn)]
    rfl
  | octal hn =>
    obtain ⟨m, hm, -⟩ := Integer.writes_ten hn
    exact hdigits hm.zero_cons
  | zero => exact hdigits (m := 0) (Digit.writes_iff.mpr rfl)
  | decimal _ hn => exact hdigits hn

/-! ## The order of the rules -/

section
variable {rules : List Rule} {cs : List Char}

/-- What a rule reads is the value if all other rules that read it stand behind. -/
theorem first?_eq_some {rule : Rule} {v : Value} (hmem : rule ∈ rules) (hv : rule.value? cs = some v)
    (hfirst : ∀ other ≠ rule, (other.value? cs).isSome → rules.idxOf rule < rules.idxOf other) :
    first? rules cs = some v := by
  induction rules with
  | nil => cases hmem
  | cons head rules ih =>
    rw [first?, List.findSome?_cons]
    by_cases hhead : head = rule
    · rw [hhead, hv]
    · -- nothing stands before the head, so it cannot read the text if another rule is first
      have hnone : head.value? cs = none := by
        by_contra hsome
        have hless := hfirst head hhead (Option.isSome_iff_ne_none.mpr hsome)
        rw [List.idxOf_cons_self] at hless
        omega
      rw [hnone]
      apply ih (List.mem_of_ne_of_mem (Ne.symm hhead) hmem)
      intro other hne hsome
      have hother : head ≠ other := by
        rintro rfl
        rw [hnone] at hsome
        cases hsome
      have hless := hfirst other hne hsome
      rw [List.idxOf_cons_ne _ hhead, List.idxOf_cons_ne _ hother] at hless
      omega

variable (hrules : ∀ rule, rule ∈ rules)
include hrules

/-- An integer is read as what comes first of an integer and a float. -/
theorem first?_integer {i : Int64} (h : Integer.read? cs = some i) :
    first? rules cs =
      if rules.idxOf integer < rules.idxOf float then some (.integer i)
      else (Float.read? cs).map .double := by
  have hinteger : integer.value? cs = some (.integer i) := by
    rw [value?, h]
    rfl
  obtain ⟨x, hx⟩ := Option.isSome_iff_exists.mp (isSome_float_of_integer (Option.isSome_of_eq_some h))
  have hfloat : float.value? cs = some (.double x) := by
    rw [value?, hx]
    rfl
  have hnumber {other : Rule} (hsome : (other.value? cs).isSome) : other = integer ∨ other = float := by
    by_cases hother : other = integer
    · exact .inl hother
    · have hnumbers := numbers_of_two hother (Option.isSome_of_eq_some hinteger) hsome
      simpa using hnumbers.2
  split
  · rename_i hless
    apply first?_eq_some (hrules integer) hinteger
    intro other hne hsome
    rw [(hnumber hsome).resolve_left hne]
    exact hless
  · rename_i hless
    rw [hx]
    apply first?_eq_some (hrules float) hfloat
    intro other hne hsome
    have hapart : rules.idxOf float ≠ rules.idxOf integer :=
      fun heq => nomatch List.idxOf_inj (hrules float) |>.mp heq
    rw [(hnumber hsome).resolve_right hne]
    omega

/-- What is no integer is read by one rule or by none, in whatever order. -/
theorem first?_reordered {other : List Rule} (hother : ∀ rule, rule ∈ other)
    (h : Integer.read? cs = none) : first? rules cs = first? other cs := by
  have hfloat {a : Rule} (ha : (a.value? cs).isSome) (hnumber : a ∈ [integer, float]) : a = float := by
    simp only [List.mem_cons, List.not_mem_nil, or_false] at hnumber
    rcases hnumber with rfl | rfl
    · rw [value?, h] at ha
      cases ha
    · rfl
  by_cases hread : ∃ rule : Rule, (rule.value? cs).isSome
  · obtain ⟨rule, hsome⟩ := hread
    obtain ⟨v, hv⟩ := Option.isSome_iff_exists.mp hsome
    have honly (b : Rule) (hne : b ≠ rule) (hb : (b.value? cs).isSome) : False := by
      obtain ⟨hrule, hnumber⟩ := numbers_of_two hne hsome hb
      exact hne ((hfloat hb hnumber).trans (hfloat hsome hrule).symm)
    rw [first?_eq_some (hrules rule) hv fun b hne hb => (honly b hne hb).elim,
      first?_eq_some (hother rule) hv fun b hne hb => (honly b hne hb).elim]
  · have hnone (rules : List Rule) : first? rules cs = none := by
      rw [first?, List.findSome?_eq_none_iff]
      intro rule _
      by_contra hsome
      exact hread ⟨rule, Option.isSome_iff_ne_none.mpr hsome⟩
    rw [hnone, hnone]

end

/-- A text is read by at most one rule if integers and floats count as one. -/
theorem count_readers (cs : List Char) :
    [Keyword.isNull cs, (Keyword.bool? cs).isSome, (Keyword.special? cs).isSome,
      (Integer.octal? cs).isSome, (Integer.read? cs).isSome || (Float.read? cs).isSome].count true ≤ 1 := by
  have hvalue : [Keyword.isNull cs, (Keyword.bool? cs).isSome, (Keyword.special? cs).isSome,
      (Integer.octal? cs).isSome, (Integer.read? cs).isSome, (Float.read? cs).isSome] =
        all.map fun rule => (rule.value? cs).isSome := by
    rw [← isSome_null]
    simp only [all, List.map_cons, List.map_nil, value?, Option.isSome_map]
  simp only [all, List.map_cons, List.map_nil, List.cons.injEq, and_true] at hvalue
  obtain ⟨hnull, hbool, hspecial, hoctal, hinteger, hfloat⟩ := hvalue
  rw [hnull, hbool, hspecial, hoctal, hinteger, hfloat]
  by_cases hword : ∃ rule ∉ [integer, float], (rule.value? cs).isSome
  · obtain ⟨rule, hrule, hsome⟩ := hword
    have hnone (other : Rule) (hne : other ≠ rule) := value?_eq_none hrule hsome hne
    cases rule with
    | null => simp [hnone bool, hnone special, hnone octal, hnone integer, hnone float, hsome]
    | bool => simp [hnone null, hnone special, hnone octal, hnone integer, hnone float, hsome]
    | special => simp [hnone null, hnone bool, hnone octal, hnone integer, hnone float, hsome]
    | octal => simp [hnone null, hnone bool, hnone special, hnone integer, hnone float, hsome]
    | integer => exact absurd (by decide) hrule
    | float => exact absurd (by decide) hrule
  · have hnone (rule : Rule) (hrule : rule ∉ [integer, float]) : rule.value? cs = none := by
      by_contra hsome
      exact hword ⟨rule, hrule, Option.isSome_iff_ne_none.mpr hsome⟩
    rw [hnone null (by decide), hnone bool (by decide), hnone special (by decide),
      hnone octal (by decide)]
    exact List.count_le_length (l := [(integer.value? cs).isSome || (float.value? cs).isSome])

/-- A text is read by at most one rule but for integers, which are floats too. So all orders of the
rules give a text the same value if they try integers before floats, and the others do if the text is
no integer. -/
theorem order_matters_for_integers (text : String) :
    [Keyword.isNull text.toList, (Keyword.bool? text.toList).isSome,
      (Keyword.special? text.toList).isSome, (Integer.octal? text.toList).isSome,
      (Integer.read? text.toList).isSome || (Float.read? text.toList).isSome].count true ≤ 1 ∧
    ((Integer.read? text.toList).isSome → (Float.read? text.toList).isSome) ∧
    ∀ rules : List Rule, rules.Perm all →
      ((first? rules text.toList).getD (.string text) = infer text ↔
        rules.idxOf integer < rules.idxOf float ∨ Integer.read? text.toList = none) := by
  refine ⟨count_readers _, isSome_float_of_integer, ?_⟩
  intro rules hperm
  have hrules (rule : Rule) : rule ∈ rules := hperm.mem_iff.mpr (mem_all rule)
  rw [infer, ← first?_all]
  cases h : Integer.read? text.toList with
  | none => simp [first?_reordered hrules mem_all h]
  | some i =>
    have hfirst : all.idxOf integer < all.idxOf float := by decide
    obtain ⟨x, hx⟩ :=
      Option.isSome_iff_exists.mp (isSome_float_of_integer (Option.isSome_of_eq_some h))
    rw [first?_integer hrules h, first?_integer mem_all h, if_pos hfirst, hx]
    by_cases hless : rules.idxOf integer < rules.idxOf float
    · simp [hless]
    · simp [hless]

end Rule

/-! ## What has to be quoted -/

theorem isSome_inferred? (rule : Rule) {cs : List Char} (h : (rule.value? cs).isSome) :
    (inferred? cs).isSome := by
  rw [← Rule.first?_all, Rule.first?, List.findSome?_isSome_iff]
  exact ⟨rule, Rule.mem_all rule, h⟩

theorem isSome_of_reserved {cs : List Char} (h : among reserved cs = true) :
    (inferred? cs).isSome := by
  have hall : ∀ w ∈ reserved.map fun w => fold w.toList, (inferred? w).isSome = true := by
    decide
  rw [← inferred?_fold]
  exact hall _ (among_iff.mp h)

/-- A string needs quotes just if its text would be read as another value. -/
theorem needsQuotes_eq (text : String) : needsQuotes text = (inferred? text.toList).isSome := by
  rw [Bool.eq_iff_iff, needsQuotes]
  simp only [Bool.or_eq_true]
  constructor
  · rintro (((hempty | hreserved) | hfloat) | hread)
    · obtain rfl := String.isEmpty_iff.mp hempty
      rfl
    · exact isSome_of_reserved hreserved
    · exact isSome_inferred? .float (by rwa [Rule.value?, Option.isSome_map])
    · exact hread
  · exact .inr

/-- Words and digits that nothing reads stay bare, and floats that look like words do not. -/
example : needsQuotes "nul" = false ∧ needsQuotes "0o18" = false ∧ needsQuotes "-Infinity" = true := by
  decide

theorem infer_eq_string_iff {text t : String} :
    infer text = .string t ↔ inferred? text.toList = none ∧ t = text := by
  rw [infer]
  cases h : inferred? text.toList with
  | none => simp [eq_comm]
  | some v => simpa using inferred?_ne_string h t

/-- A string is forced into quotes exactly if it would not be read back as itself without them. All
reserved words and all floats are forced for this reason, and no text is read as any other string. -/
theorem quotes_are_forced_exactly (text : String) :
    (needsQuotes text = true ↔ infer text ≠ .string text) ∧
    (among reserved text.toList = true → ∀ t, infer text ≠ .string t) ∧
    ((Float.read? text.toList).isSome → ∀ t, infer text ≠ .string t) ∧
    ((∀ t, infer text ≠ .string t) → needsQuotes text = true) ∧
    ∀ t, infer text = .string t → t = text := by
  have hstring (h : (inferred? text.toList).isSome) (t : String) : infer text ≠ .string t := by
    rw [Ne, infer_eq_string_iff]
    rintro ⟨hnone, -⟩
    rw [hnone] at h
    cases h
  have hread (h : infer text ≠ .string text) : (inferred? text.toList).isSome := by
    by_contra hnone
    exact h (infer_eq_string_iff.mpr ⟨Option.not_isSome_iff_eq_none.mp hnone, rfl⟩)
  rw [needsQuotes_eq]
  refine ⟨⟨fun h => hstring h text, hread⟩, fun h => hstring (isSome_of_reserved h), ?_,
    fun h => hread (h text), fun t h => (infer_eq_string_iff.mp h).2⟩
  intro h
  apply hstring
  exact isSome_inferred? .float (by rwa [Rule.value?, Option.isSome_map])

end YamlCodec.Scalar
