import YamlCodec.Proofs.Scalar.Case
import YamlCodec.Proofs.Scalar.Radix

/-!
# What a floating-point literal is

The grammar of floating-point literals, apart from how they are read: a sign or none before a word, or
before digits with an optional point and an optional exponent, decimal ones bare and hexadecimal ones
behind `0x`. The reader cuts a hexadecimal literal at the first mark of an exponent and what stands before
that at the first point, so that a second one is left among the digits, where it is no digit. It reads
the texts of the grammar and no others, but for fractions of `2 ^ 29` hexadecimal digits or more.
-/

set_option autoImplicit false

namespace YamlCodec

namespace Text

/-- A run of digits and what follows it make up the text. -/
theorem Digit.span_join (base : ℕ) (cs : List Char) :
    (span base cs).1 ++ (span base cs).2 = cs := by
  induction cs with
  | nil => rfl
  | cons c cs ih =>
    rw [span]
    split
    · rw [List.cons_append, ih]
    · rfl

namespace Sign

/-- No sign, or one. -/
def texts : List (List Char) := [[], ['+'], ['-']]

/-- A sign is split off what does not begin with one. -/
theorem split_append {sign body : List Char} (hs : sign ∈ texts)
    (hbody : ∀ c ∈ body.head?, c ≠ '+' ∧ c ≠ '-') :
    split (sign ++ body) = (sign == ['-'], body) := by
  simp only [texts, List.mem_cons, List.not_mem_nil, or_false] at hs
  rcases hs with rfl | rfl | rfl
  · rw [List.nil_append]
    unfold split
    split
    · exact absurd rfl (hbody '+' rfl).1
    · exact absurd rfl (hbody '-' rfl).2
    · rfl
  · rfl
  · rfl

theorem exists_split (cs : List Char) :
    ∃ sign ∈ texts, cs = sign ++ (split cs).2 ∧ (split cs).1 = (sign == ['-']) := by
  unfold split
  split
  · exact ⟨['+'], by decide, rfl, rfl⟩
  · exact ⟨['-'], by decide, rfl, rfl⟩
  · exact ⟨[], by decide, rfl, rfl⟩

end Sign
end Text

namespace Scalar
open Text
open Text.Digit (Writes writes_iff number? value? IsDecimal AllDecimal span)

/-- What follows a sign is digits just if signed digits are what it is split off. -/
theorem Integer.signed_iff {base : ℕ} {cs : List Char} {z : ℤ} :
    (∃ sign ds, cs = sign ++ ds ∧ Signed base sign ds z) ↔
      ∃ n, number? base (Sign.split cs).2 = some n ∧ z = if (Sign.split cs).1 then -(n : ℤ) else n := by
  constructor
  · rintro ⟨sign, ds, rfl, h⟩
    have hhead : ∀ c ∈ ds.head?, (Digit.hexValue? c).isSome := by
      intro c hc
      obtain ⟨n, hn, -⟩ := h.writes
      obtain ⟨d, hd, -⟩ := Writes.head (List.eq_cons_of_mem_head? hc ▸ hn)
      rw [Digit.hexValue?_eq_some_iff.mpr hd]
      rfl
    obtain ⟨negative, n, hsplit, hn, rfl⟩ := h.split ds hhead
    rw [hsplit]
    exact ⟨n, writes_iff.mp hn, rfl⟩
  · rintro ⟨n, hn, rfl⟩
    have hwrites := writes_iff.mpr hn
    unfold Sign.split at hwrites ⊢
    split at hwrites
    · exact ⟨['+'], _, rfl, .plus hwrites⟩
    · exact ⟨['-'], _, rfl, .minus hwrites⟩
    · exact ⟨[], _, rfl, .bare hwrites⟩

namespace Float

/-! ## The grammar -/

/-- Digits with an optional point among or beside them, at least one in all: the number that they write
without the point, and how many of them follow it. -/
inductive Mantissa (base : ℕ) : List Char → ℕ → ℕ → Prop
  | whole {ds : List Char} {n : ℕ} : Writes base ds n → Mantissa base ds n 0
  | pointed {ws fs : List Char} {n : ℕ} :
      Writes base (ws ++ fs) n → Mantissa base (ws ++ '.' :: fs) n fs.length

/-- An exponent behind its mark, if there is one. -/
inductive Exponent (marks : List Char) : List Char → ℤ → Prop
  | absent : Exponent marks [] 0
  | present {mark : Char} {sign ds : List Char} {z : ℤ} :
      mark ∈ marks → Integer.Signed 10 sign ds z → Exponent marks (mark :: (sign ++ ds)) z

/-- A literal without a sign, with the number of hexadecimal digits that follow its point. -/
inductive Unsigned : ℕ → List Char → Prop
  | word {w : String} {cs : List Char} :
      w ∈ ["inf", "infinity", "nan"] → Word.same w.toList cs = true → Unsigned 0 cs
  | decimal {m e : List Char} {n k : ℕ} {z : ℤ} :
      Mantissa 10 m n k → Exponent ['e', 'E'] e z → Unsigned 0 (m ++ e)
  | hexadecimal {x : Char} {m e : List Char} {n k : ℕ} {z : ℤ} :
      x ∈ ['x', 'X'] → Mantissa 16 m n k → Exponent ['p', 'P'] e z → Unsigned k ('0' :: x :: (m ++ e))

/-- A literal, with the number of hexadecimal digits that follow its point. -/
inductive Literal : ℕ → List Char → Prop
  | intro {k : ℕ} {sign cs : List Char} : sign ∈ Sign.texts → Unsigned k cs → Literal k (sign ++ cs)

section
variable {base : ℕ} {m : List Char} {n k : ℕ}

/-- A mantissa is made of digits and the point. -/
theorem Mantissa.all (h : Mantissa base m n k) : ∀ c ∈ m, (value? base c).isSome ∨ c = '.' := by
  cases h with
  | whole h => exact fun c hc => .inl (Digit.isSome_of_number? (writes_iff.mp h) c hc)
  | @pointed ws fs n h =>
    have hdigits := Digit.isSome_of_number? (writes_iff.mp h)
    intro c hc
    rcases List.mem_append.mp hc with hc | hc
    · exact .inl (hdigits c (List.mem_append_left fs hc))
    · rcases List.mem_cons.mp hc with rfl | hc
      · exact .inr rfl
      · exact .inl (hdigits c (List.mem_append_right ws hc))

theorem Mantissa.ne_nil (h : Mantissa base m n k) : m ≠ [] := by
  cases h with
  | whole h => exact h.ne_nil
  | pointed h => simp

end

/-- An exponent begins with its mark. -/
theorem Exponent.head {marks e : List Char} {z : ℤ} (h : Exponent marks e z) :
    ∀ c ∈ e.head?, c ∈ marks := by
  cases h with
  | absent => simp
  | present hmark h =>
    rintro c ⟨⟩
    exact hmark

/-! ## Decimal literals -/

theorem exponent?_eq_some_iff {cs : List Char} {z : ℤ} :
    exponent? cs = some z ↔ Exponent ['e', 'E'] cs z := by
  cases cs with
  | nil =>
    constructor
    · rintro ⟨⟩
      exact .absent
    · rintro ⟨⟩
      rfl
  | cons c cs =>
    have hread : exponent? (c :: cs) = some z ↔ c ∈ ['e', 'E'] ∧
        ∃ n, number? 10 (Sign.split cs).2 = some n ∧ z = if (Sign.split cs).1 then -(n : ℤ) else n := by
      by_cases hmark : c ∈ ['e', 'E']
      · have hmark' : (c == 'e' || c == 'E') = true := by simpa using hmark
        cases hn : number? 10 (Sign.split cs).2 with
        | none => simp [exponent?, hmark', hn]
        | some n => simp [exponent?, hmark, hmark', hn, @eq_comm ℤ z]
      · have hmark' : (c == 'e' || c == 'E') = false := by simpa using hmark
        simp [exponent?, hmark, hmark']
    rw [hread, ← Integer.signed_iff]
    constructor
    · rintro ⟨hc, sign, ds, rfl, hsigned⟩
      exact .present hc hsigned
    · rintro (_ | ⟨hc, hsigned⟩)
      exact ⟨hc, _, _, rfl, hsigned⟩

theorem decimal?_literal {m e : List Char} {n k : ℕ} {z : ℤ} (hm : Mantissa 10 m n k)
    (he : Exponent ['e', 'E'] e z) (negative : Bool) :
    decimal? negative (m ++ e) = some (Double.ofDecimal negative n (z - k)) := by
  have hexponent := exponent?_eq_some_iff.mpr he
  have hmark : ∀ c ∈ e.head?, ¬ IsDecimal c ∧ c ≠ '.' := by
    intro c hc
    have := he.head c hc
    simp only [List.mem_cons, List.not_mem_nil, or_false] at this
    rcases this with rfl | rfl
    · decide
    · decide
  cases hm with
  | whole h =>
    have hnumber := writes_iff.mp h
    have hspan : span 10 (m ++ e) = (m, e) :=
      Digit.span_append (Digit.isSome_of_number? hnumber) fun c hc => (hmark c hc).1
    have hfraction : fraction e = ([], e) := by
      unfold fraction
      split
      · exact absurd rfl (hmark '.' rfl).2
      · rfl
    simp [decimal?_eq, hspan, hfraction, hnumber, hexponent]
  | @pointed ws fs n h =>
    have hnumber := writes_iff.mp h
    have hdigits : AllDecimal (ws ++ fs) := Digit.isSome_of_number? hnumber
    have hwhole : span 10 (ws ++ '.' :: (fs ++ e)) = (ws, '.' :: (fs ++ e)) := by
      apply Digit.span_append fun c hc => hdigits c (List.mem_append_left fs hc)
      rintro c ⟨⟩
      decide
    have hfraction : fraction ('.' :: (fs ++ e)) = (fs, e) :=
      Digit.span_append (fun c hc => hdigits c (List.mem_append_right ws hc)) fun c hc => (hmark c hc).1
    simp [decimal?_eq, hwhole, hfraction, hnumber, hexponent]

theorem fraction_cases (cs : List Char) :
    (∃ rest, cs = '.' :: rest ∧ fraction cs = span 10 rest) ∨ fraction cs = ([], cs) := by
  unfold fraction
  split
  · exact .inl ⟨_, rfl, rfl⟩
  · exact .inr rfl

theorem literal_of_decimal? {negative : Bool} {cs : List Char} {x : Double}
    (h : decimal? negative cs = some x) :
    ∃ m e n k z, cs = m ++ e ∧ Mantissa 10 m n k ∧ Exponent ['e', 'E'] e z := by
  have hjoin := Digit.span_join 10 cs
  rw [decimal?_eq] at h
  split at h
  · rename_i n z hn hz
    replace hz := exponent?_eq_some_iff.mp hz
    rcases fraction_cases (span 10 cs).2 with ⟨rest, hrest, hfraction⟩ | hfraction
    · rw [hfraction] at hn hz
      refine ⟨(span 10 cs).1 ++ '.' :: (span 10 rest).1, (span 10 rest).2, n, _, z, ?_,
        .pointed (writes_iff.mpr hn), hz⟩
      rw [List.append_assoc, List.cons_append, Digit.span_join, ← hrest, hjoin]
    · rw [hfraction] at hn hz
      rw [List.append_nil] at hn
      exact ⟨_, _, n, 0, z, hjoin.symm, .whole (writes_iff.mpr hn), hz⟩
  · cases h

end Float

/-! ## Hexadecimal literals -/

namespace HexFloat
open Scalar.Float (Mantissa Exponent)

/-- A text is cut at its first separator. -/
theorem cutAt_append {separator : Char → Bool} {cs rest : List Char} {c : Char}
    (h : ∀ x ∈ cs, separator x = false) (hc : separator c = true) :
    cutAt separator (cs ++ c :: rest) = (cs, some rest) := by
  induction cs with
  | nil => rw [List.nil_append, cutAt, if_pos hc]
  | cons x cs ih =>
    have hx : ¬ separator x = true := by
      rw [h x List.mem_cons_self]
      decide
    rw [List.cons_append, cutAt, if_neg hx, ih fun y hy => h y (List.mem_cons_of_mem x hy)]

/-- A text that is not cut is whole, and one that is cut is made of both parts and the separator. -/
theorem cutAt_join (separator : Char → Bool) (cs : List Char) :
    cutAt separator cs = (cs, none) ∨
      ∃ a c b, cs = a ++ c :: b ∧ separator c = true ∧ cutAt separator cs = (a, some b) := by
  induction cs with
  | nil => exact .inl rfl
  | cons c cs ih =>
    rw [cutAt]
    split
    · rename_i hc
      exact .inr ⟨[], c, cs, rfl, hc, rfl⟩
    · rcases ih with h | ⟨a, d, b, rfl, hd, h⟩
      · exact .inl (by rw [h])
      · exact .inr ⟨c :: a, d, b, rfl, hd, by rw [h]⟩

/-- What an exponent counts as: one past 32 bits is half their range. -/
def capped (z : ℤ) : ℤ := if z.natAbs < 2 ^ 31 then z else z.sign * 0x3fffffff

theorem power?_eq_some_iff {cs : List Char} {p : ℤ} :
    power? (some cs) = some p ↔
      ∃ sign ds z, cs = sign ++ ds ∧ Integer.Signed 10 sign ds z ∧ p = capped z := by
  have hcapped (negative : Bool) (n : ℕ) :
      (let m : ℤ := if n < 0x80000000 then n else 0x3fffffff
        if negative then -m else m) = capped (if negative then -(n : ℤ) else n) := by
    simp only [capped]
    cases negative with
    | false =>
      by_cases hn : n < 0x80000000
      · simp [hn]
      · have hsign : (n : ℤ).sign = 1 := Int.sign_eq_one_of_pos (by omega)
        simp [hn, hsign]
    | true =>
      by_cases hn : n < 0x80000000
      · simp [hn]
      · have hsign : (-(n : ℤ)).sign = -1 := Int.sign_eq_neg_one_of_neg (by omega)
        simp [hn, hsign]
  rw [power?]
  constructor
  · intro h
    simp only at h
    split at h
    · cases h
    · rename_i n hn
      obtain ⟨sign, ds, hcs, hsigned⟩ := Integer.signed_iff.mpr ⟨n, hn, rfl⟩
      refine ⟨sign, ds, _, hcs, hsigned, ?_⟩
      rw [← hcapped]
      exact (Option.some.inj h).symm
  · rintro ⟨sign, ds, z, rfl, hsigned, rfl⟩
    obtain ⟨n, hn, rfl⟩ := Integer.signed_iff.mp ⟨sign, ds, rfl, hsigned⟩
    simp only [hn]
    rw [← hcapped]

section
variable {m : List Char} {n k : ℕ} (hm : Mantissa 16 m n k)
include hm

/-- No mark of an exponent is among the digits. -/
theorem unmarked : ∀ c ∈ m, (c == 'p' || c == 'P') = false := by
  intro c hc
  rw [Bool.eq_false_iff]
  intro hp
  simp only [Bool.or_eq_true, beq_iff_eq] at hp
  rcases hm.all c hc with h | rfl
  · rcases hp with rfl | rfl
    · exact absurd h (by decide)
    · exact absurd h (by decide)
  · exact absurd hp (by decide)

/-- A mantissa is cut at its point, if it has one. -/
theorem cut_point :
    ∃ ws fs, (cutAt (· == '.') m).1 = ws ∧ (cutAt (· == '.') m).2.getD [] = fs ∧
      number? 16 (ws ++ fs) = some n ∧ fs.length = k := by
  have hpoint {ds : List Char} (h : ∀ c ∈ ds, (value? 16 c).isSome) :
      ∀ c ∈ ds, (c == '.') = false := by
    intro c hc
    rw [beq_eq_false_iff_ne]
    rintro rfl
    exact absurd (h '.' hc) (by decide)
  cases hm with
  | whole h =>
    have hnumber := writes_iff.mp h
    rw [cutAt_none (hpoint (Digit.isSome_of_number? hnumber))]
    exact ⟨m, [], rfl, rfl, by rwa [List.append_nil], rfl⟩
  | @pointed ws fs n h =>
    have hnumber := writes_iff.mp h
    have hdigits := Digit.isSome_of_number? hnumber
    have hcut : cutAt (· == '.') (ws ++ '.' :: fs) = (ws, some fs) :=
      cutAt_append (hpoint fun c hc => hdigits c (List.mem_append_left fs hc)) rfl
    rw [hcut]
    exact ⟨ws, fs, rfl, rfl, hnumber, rfl⟩

/-- The sum of the digits is scaled by the exponent less four for every digit behind the point. -/
theorem read?_literal {e : List Char} {z : ℤ} (he : Exponent ['p', 'P'] e z) :
    read? (m ++ e) = if k < 2 ^ 29 then
      some (scaleBy (Double.ofValue false (kept n)) (capped z - 4 * k)) else none := by
  have hcut : ∃ rest, cutAt (fun c => c == 'p' || c == 'P') (m ++ e) = (m, rest) ∧
      power? rest = some (capped z) := by
    cases he with
    | absent =>
      rw [List.append_nil, cutAt_none (unmarked hm)]
      exact ⟨none, rfl, rfl⟩
    | @present mark sign ds z hmark hsigned =>
      have hp : (mark == 'p' || mark == 'P') = true := by simpa using hmark
      rw [cutAt_append (unmarked hm) hp]
      exact ⟨some (sign ++ ds), rfl, power?_eq_some_iff.mpr ⟨sign, ds, z, rfl, hsigned, rfl⟩⟩
  obtain ⟨rest, hcut, hpower⟩ := hcut
  obtain ⟨ws, fs, hws, hfs, hnumber, rfl⟩ := cut_point hm
  have hempty : (ws.isEmpty && fs.isEmpty) = false := by
    match ws, fs with
    | [], [] => cases hnumber
    | [], _ :: _ => rfl
    | _ :: _, _ => rfl
  simp only [read?, hcut, hws, hfs, hempty, digits?_number hnumber, hpower]
  by_cases hlong : 0x20000000 ≤ fs.length
  · simp [hlong, Nat.not_lt.mpr hlong]
  · simp [hlong, Nat.lt_of_not_le hlong]

end

theorem mantissa_of_number? {cs : List Char} {n : ℕ}
    (h : number? 16 ((cutAt (· == '.') cs).1 ++ (cutAt (· == '.') cs).2.getD []) = some n) :
    Mantissa 16 cs n ((cutAt (· == '.') cs).2.getD []).length := by
  rcases cutAt_join (· == '.') cs with hcut | ⟨ws, c, fs, hcs, hc, hcut⟩
  · rw [hcut] at h ⊢
    rw [Option.getD_none, List.append_nil] at h
    exact .whole (writes_iff.mpr h)
  · rw [hcut] at h ⊢
    rw [hcs, beq_iff_eq.mp hc]
    exact .pointed (writes_iff.mpr h)

theorem exponent_of_power? {cs : List Char} {p : ℤ}
    (h : power? (cutAt (fun c => c == 'p' || c == 'P') cs).2 = some p) :
    ∃ m e z, cs = m ++ e ∧ (cutAt (fun c => c == 'p' || c == 'P') cs).1 = m ∧
      Exponent ['p', 'P'] e z := by
  rcases cutAt_join (fun c => c == 'p' || c == 'P') cs with hcut | ⟨m, c, rest, hcs, hc, hcut⟩
  · rw [hcut]
    exact ⟨cs, [], 0, (List.append_nil cs).symm, rfl, .absent⟩
  · rw [hcut] at h ⊢
    obtain ⟨sign, ds, z, rfl, hsigned, -⟩ := power?_eq_some_iff.mp h
    exact ⟨m, _, z, hcs, rfl, .present (by simpa using hc) hsigned⟩

/-- The sum of a run of at least one digit is that of a number. -/
theorem number?_of_digits? {cs : List Char} {x : Double} (hne : cs ≠ [])
    (h : digits? (Double.zero false) cs = some x) : ∃ n, number? 16 cs = some n := by
  rw [zero_eq, digits?_kept, Option.map_eq_some_iff] at h
  obtain ⟨n, hn, -⟩ := h
  exact ⟨n, Digit.number?_of_run (List.length_pos_iff.mpr hne) hn⟩

theorem literal_of_read? {cs : List Char} {x : Double} (h : read? cs = some x) :
    ∃ m e n k z, cs = m ++ e ∧ Mantissa 16 m n k ∧ Exponent ['p', 'P'] e z ∧ k < 2 ^ 29 := by
  unfold read? at h
  simp only at h
  split at h
  · cases h
  split at h
  · cases h
  rename_i hempty hlong
  split at h
  · rename_i sum p hsum hp
    obtain ⟨m, e, z, hcs, hm, he⟩ := exponent_of_power? hp
    rw [hm] at hempty hlong hsum
    obtain ⟨n, hn⟩ := number?_of_digits? (by simpa using hempty) hsum
    exact ⟨m, e, n, _, z, hcs, mantissa_of_number? hn, he, Nat.lt_of_not_le hlong⟩
  · cases h

end HexFloat

/-! ## All literals -/

namespace Float

/-- A decimal literal is not one behind a zero and a letter. -/
theorem marked_decimal {m e : List Char} {n k : ℕ} {z : ℤ} (hm : Mantissa 10 m n k)
    (he : Exponent ['e', 'E'] e z) : marked 'x' 'X' (m ++ e) = none := by
  rw [Option.eq_none_iff_forall_ne_some]
  intro ds hds
  obtain ⟨x, hx, hcs⟩ := marked_eq_some_iff.mp hds
  match m with
  | [] => exact hm.ne_nil rfl
  | [z] =>
    -- the letter would be the mark of the exponent
    rw [List.singleton_append, List.cons.injEq] at hcs
    have hmark := he.head x (by rw [hcs.2]; rfl)
    simp only [List.mem_cons, List.not_mem_nil, or_false] at hx
    rcases hx with rfl | rfl
    · exact absurd hmark (by decide)
    · exact absurd hmark (by decide)
  | z :: c :: m =>
    rw [List.cons_append, List.cons_append, List.cons.injEq, List.cons.injEq] at hcs
    have hdigit := hm.all c (by simp)
    rw [hcs.2.1] at hdigit
    simp only [List.mem_cons, List.not_mem_nil, or_false] at hx
    rcases hx with rfl | rfl
    · exact absurd hdigit (by decide)
    · exact absurd hdigit (by decide)

theorem word_letters {w : String} {cs : List Char} (hw : w ∈ ["inf", "infinity", "nan"])
    (h : Word.same w.toList cs = true) : ∀ c ∈ cs, c.toLower ∈ ['a', 'f', 'i', 'n', 't', 'y'] := by
  intro c hc
  have hmem : c.toLower ∈ Word.fold w.toList := beq_iff_eq.mp h ▸ List.mem_map_of_mem hc
  have hall : (["inf", "infinity", "nan"].all fun w =>
      (Word.fold w.toList).all fun x => ['a', 'f', 'i', 'n', 't', 'y'].contains x) = true := rfl
  exact List.contains_iff_mem.mp (List.all_eq_true.mp (List.all_eq_true.mp hall w hw) _ hmem)

theorem marked_word {w : String} {cs : List Char} (hw : w ∈ ["inf", "infinity", "nan"])
    (h : Word.same w.toList cs = true) : marked 'x' 'X' cs = none := by
  rw [Option.eq_none_iff_forall_ne_some]
  intro ds hds
  obtain ⟨x, -, rfl⟩ := marked_eq_some_iff.mp hds
  exact absurd (word_letters hw h '0' List.mem_cons_self) (by decide)

theorem Unsigned.head {k : ℕ} {cs : List Char} (h : Unsigned k cs) :
    ∀ c ∈ cs.head?, c ≠ '+' ∧ c ≠ '-' := by
  intro c hc
  have hmem : c ∈ cs := List.mem_of_mem_head? hc
  rw [← not_or]
  rintro (rfl | rfl)
  all_goals
    cases h with
    | word hw hsame => exact absurd (word_letters hw hsame _ hmem) (by decide)
    | @decimal m e _ _ _ hm he =>
      rw [List.head?_append_of_ne_nil _ hm.ne_nil] at hc
      exact absurd (hm.all _ (List.mem_of_mem_head? hc)) (by decide)
    | hexadecimal => exact absurd hc (by simp)

/-- What follows the sign of a text decides whether it is read. -/
theorem read?_isSome_iff {cs : List Char} :
    (read? cs).isSome ↔ ∃ k < 2 ^ 29, Unsigned k (Sign.split cs).2 := by
  rw [read?_eq]
  generalize (Sign.split cs).1 = negative, (Sign.split cs).2 = body
  constructor
  · intro h
    split at h
    · rename_i rest hrest
      obtain ⟨x, hx, hbody⟩ := marked_eq_some_iff.mp hrest
      rw [Option.isSome_map, Option.isSome_iff_exists] at h
      obtain ⟨_, h⟩ := h
      obtain ⟨m, e, n, k, z, rfl, hm, he, hk⟩ := HexFloat.literal_of_read? h
      exact ⟨k, hk, hbody ▸ .hexadecimal hx hm he⟩
    · split at h
      · rename_i hword
        obtain ⟨w, hw, hsame⟩ := List.any_eq_true.mp hword
        exact ⟨0, by decide, .word (List.mem_append_left ["nan"] hw) hsame⟩
      split at h
      · rename_i hword
        exact ⟨0, by decide, .word (by decide) hword⟩
      · rw [Option.isSome_iff_exists] at h
        obtain ⟨_, h⟩ := h
        obtain ⟨m, e, n, k, z, rfl, hm, he⟩ := literal_of_decimal? h
        exact ⟨0, by decide, .decimal hm he⟩
  · rintro ⟨k, hk, h⟩
    cases h with
    | @word w _ hw hsame =>
      rw [marked_word hw hsame]
      by_cases hinf : Word.among ["inf", "infinity"] body = true
      · simp only [if_pos hinf]
        rfl
      · have hnan : w = "nan" := by
          by_contra hne
          refine hinf (List.any_eq_true.mpr ⟨w, ?_, hsame⟩)
          simpa [hne] using hw
        rw [hnan] at hsame
        simp only [if_neg hinf, if_pos hsame]
        rfl
    | @decimal m e _ _ _ hm he =>
      rw [marked_decimal hm he]
      simp only [decimal?_literal hm he]
      split_ifs <;> rfl
    | @hexadecimal x m e _ _ _ hx hm he =>
      rw [marked_eq_some_iff.mpr ⟨x, hx, rfl⟩]
      simp only [HexFloat.read?_literal hm he, if_pos hk]
      rfl

/-- The texts that are read as floating-point numbers are the literals with less than `2 ^ 29`
hexadecimal digits behind the point. -/
theorem accepts_exactly_literals (cs : List Char) :
    (read? cs).isSome ↔ ∃ k < 2 ^ 29, Literal k cs := by
  rw [read?_isSome_iff]
  constructor
  · rintro ⟨k, hk, h⟩
    obtain ⟨sign, hsign, hcs, -⟩ := Sign.exists_split cs
    exact ⟨k, hk, hcs ▸ .intro hsign h⟩
  · rintro ⟨k, hk, hsign, h⟩
    rw [Sign.split_append hsign h.head]
    exact ⟨k, hk, h⟩

/-- A second sign, point or exponent, an underscore, space around and a digit of another script. -/
example :
    ["+-1", "1.2.3", "0x1.2.3", "1e5e5", "0x1p2p3", "1_000", " 1", "1 ", "1e", "0x", ".", "٣"].all
      (fun text => (read? text.toList).isNone) = true := by
  decide

end Float
end Scalar
end YamlCodec
