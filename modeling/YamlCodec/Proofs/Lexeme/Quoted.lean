import YamlCodec.Lexeme.Quoted
import YamlCodec.Scalar.Plain
import YamlCodec.Proofs.Lexeme.Gap

/-!
# Double-quoted scalars read back

A character stands between the quotes as it is or as an escape that is read as this character, so a
quoted text is read back whole. It stands on one line, holds no character that a plain text must not hold
either, and its first quote that is not escaped is the closing one.
-/

set_option autoImplicit false

namespace YamlCodec.Lexeme.Quoted
open YamlCodec.Source YamlCodec.Scalar YamlCodec.Scalar.Quoted YamlCodec.Text

/-- Neither ends the text between the quotes nor begins an escape. -/
def isMark (c : Char) : Bool := c == '\\' || c == '"'

theorem isMark_eq_false_iff {c : Char} : isMark c = false ↔ c ≠ '\\' ∧ c ≠ '"' := by simp [isMark]

theorem capitalHex_two : ∀ n < 256, Digit.number? 16 (capitalHex 2 n) = some n ∧
    (capitalHex 2 n).length = 2 ∧ (capitalHex 2 n).any isUnsafe = false ∧
    (capitalHex 2 n).any isMark = false := by
  decide +kernel

theorem isControl_false {c : Char} (h : isUnsafe c = false) : isControl c = false :=
  (Bool.or_eq_false_iff.mp h).1

theorem char?_toNat (c : Char) : CodeUnit.char? c.toNat = some c := by
  have hvalid : c.toNat.isValidChar := c.valid
  rw [CodeUnit.char?, if_pos hvalid, Char.ofNat_toNat]

/-- How a character stands between double quotes. -/
inductive Written (c : Char) : List Char → Prop where
  | raw (hmark : isMark c = false) (hsafe : isUnsafe c = false) : Written c [c]
  | escape {x : Char} {code : List Char}
      (hread : ∀ rest, Escape.read (x :: (code ++ rest)) = .ok (c, code.length + 1))
      (hsafe : (x :: code).any isUnsafe = false) (hmark : code.any isMark = false) :
      Written c ('\\' :: x :: code)

theorem written_letter {c x : Char} (h : Escape.letter? x = some c) (hx : isUnsafe x = false) :
    Written c ['\\', x] :=
  .escape (fun rest => by simp [Escape.read, h]) (by simp [hx]) rfl

theorem written_control {c : Char} (h : isControl c = true) :
    Written c ('\\' :: 'x' :: capitalHex 2 c.toNat) := by
  have hlt : c.toNat < 256 := by
    simp only [isControl, Bool.or_eq_true, Bool.and_eq_true, decide_eq_true_eq] at h
    omega
  obtain ⟨hnumber, hlength, hsafe, hmark⟩ := capitalHex_two c.toNat hlt
  refine .escape (fun rest => ?_) ?_ hmark
  · have htake : (capitalHex 2 c.toNat ++ rest).take 2 = capitalHex 2 c.toNat := by
      rw [List.take_append_of_le_length (by omega), List.take_of_length_le (by omega)]
    have hcode : CodeUnit.code? 2 (capitalHex 2 c.toNat ++ rest) = some c.toNat := by
      simp only [CodeUnit.code?, htake, hlength, if_true, hnumber]
    have hletter : Escape.letter? 'x' = none := by decide
    rw [Escape.read, hletter]
    simp [Escape.coded?, hcode, char?_toNat, hlength]
  · rw [List.any_cons, hsafe]
    decide

theorem written_unit {c : Char} (h : c.toNat = 0xfeff ∨ c.toNat = 0xfffe ∨ c.toNat = 0xffff) :
    Written c ('\\' :: 'u' :: capitalHex 4 c.toNat) := by
  have hc : c = '\ufeff' ∨ c = '\ufffe' ∨ c = '\uffff' := by
    rcases h with h | h | h
    · exact .inl (Char.toNat_inj.mp h)
    · exact .inr (.inl (Char.toNat_inj.mp h))
    · exact .inr (.inr (Char.toNat_inj.mp h))
  rcases hc with rfl | rfl | rfl <;> exact .escape (fun rest => rfl) (by decide) (by decide)

/-- A character is safe if it is neither a control character nor one of the few others. -/
theorem isUnsafe_false {c : Char} (hcontrol : ¬ isControl c)
    (hunit : ¬ (c.toNat = 0xfeff ∨ c.toNat = 0xfffe ∨ c.toNat = 0xffff)) (hline : c ≠ '\u2028')
    (hparagraph : c ≠ '\u2029') : isUnsafe c = false := by
  have h2028 : c.toNat ≠ 0x2028 := fun h => hline (Char.toNat_inj.mp h)
  have h2029 : c.toNat ≠ 0x2029 := fun h => hparagraph (Char.toNat_inj.mp h)
  have hmem : c.toNat ∉ [0xfeff, 0x2028, 0x2029, 0xfffe, 0xffff] := by
    simp only [List.mem_cons, List.not_mem_nil, or_false]
    omega
  rw [isUnsafe, Bool.eq_false_iff.mpr hcontrol, Bool.false_or, Bool.eq_false_iff]
  exact fun h => hmem (List.contains_iff_mem.mp h)

theorem written_encodeChar (c : Char) : Written c (encodeChar c) := by
  unfold encodeChar
  split
  case h_15 _ hslash hquote _ _ _ _ _ _ _ _ _ _ hline hparagraph =>
    split
    · exact written_unit ‹_›
    · split
      · exact written_control ‹_›
      · exact .raw (isMark_eq_false_iff.mpr ⟨hslash, hquote⟩)
          (isUnsafe_false ‹_› ‹_› hline hparagraph)
  all_goals exact written_letter (by decide) (by decide)

theorem Written.safe {c : Char} {cs : List Char} (h : Written c cs) : cs.any isUnsafe = false := by
  cases h with
  | raw hmark hsafe => simp [hsafe]
  | escape hread hsafe hmark =>
    rw [List.any_cons, hsafe]
    decide

theorem body_safe (cs : List Char) : (cs.flatMap encodeChar).any isUnsafe = false := by
  rw [List.any_flatMap, List.any_eq_false]
  intro c _
  rw [(written_encodeChar c).safe]
  decide

/-- A text between quotes holds no control characters, so it stands on one line. -/
theorem encode_clean (cs : List Char) : (encode cs).any isControl = false := by
  have hbody : (cs.flatMap encodeChar).any isControl = false := by
    rw [List.any_eq_false]
    intro c hc
    rw [isControl_false (Bool.eq_false_iff.mpr (List.any_eq_false.mp (body_safe cs) c hc))]
    decide
  rw [encode, List.any_cons, List.any_append, hbody]
  decide

theorem oneLine_of_clean {cs : List Char} (h : cs.any isControl = false) : OneLine cs := by
  intro c hc
  have hclean := List.any_eq_false.mp h c hc
  have hne {x : Char} (hx : isControl x = true) : c ≠ x := by
    rintro rfl
    exact hclean hx
  have hfeed : c ≠ '\n' := hne (by decide)
  have hreturn : c ≠ '\r' := hne (by decide)
  simp [isBreak, hfeed, hreturn]

theorem breakLength_eq_zero {c : Char} {cs : List Char} (h : isBreak c = false) :
    breakLength (c :: cs) = 0 := by
  unfold breakLength
  split
  · rename_i heq
    obtain ⟨rfl, -⟩ := List.cons.inj heq
    exact absurd h (by decide)
  · rename_i heq
    obtain ⟨rfl, rfl⟩ := List.cons.inj heq
    rw [h]
    rfl
  · rfl

section
variable (flow : Bool) (indent : Int)

theorem body_skip (xs : List Char) (taken : List Char) (gap : Gap) (n : Nat) (rest : List Char) :
    body .double flow indent xs.length taken gap n (xs ++ rest) =
      body .double flow indent 0 taken gap (n + xs.length) rest := by
  induction xs generalizing n with
  | nil => rfl
  | cons x xs ih =>
    rw [List.cons_append, List.length_cons, body, ih]
    simp [Nat.add_assoc, Nat.add_comm 1]

/-- One character of the text is read, blanks being kept apart. -/
theorem body_written {c : Char} {cs : List Char} (h : Written c cs) (taken blanks : List Char)
    (n : Nat) (rest : List Char) :
    ∃ taken' blanks', blanks' ++ taken' = c :: (blanks ++ taken) ∧
      body .double flow indent 0 taken (.inline blanks) n (cs ++ rest) =
        body .double flow indent 0 taken' (.inline blanks') (n + cs.length) rest := by
  cases h with
  | raw hmark hsafe =>
    obtain ⟨hslash, hquote⟩ := isMark_eq_false_iff.mp hmark
    have hclean : OneLine [c] := oneLine_of_clean (by simp [isControl_false hsafe])
    have hline := hclean c List.mem_cons_self
    by_cases hblank : isBlank c = true
    · refine ⟨taken, c :: blanks, rfl, ?_⟩
      rw [List.singleton_append, body]
      simp [hblank, Gap.blank]
    · refine ⟨c :: (blanks ++ taken), [], rfl, ?_⟩
      rw [List.singleton_append, body]
      simp [hblank, hline, Gap.check, Quote.char, hquote, hslash, Gap.text]
  | @escape x code hread hsafe hmark =>
    have hblank : isBlank '\\' = false := by decide
    have hline : isBreak '\\' = false := by decide
    have hclean : OneLine [x] := oneLine_of_clean
      (by simp [isControl_false (Bool.or_eq_false_iff.mp hsafe).1])
    have hbreak : breakLength (x :: (code ++ rest)) = 0 :=
      breakLength_eq_zero (hclean x List.mem_cons_self)
    have hskip := body_skip flow indent (x :: code) (c :: (blanks ++ taken)) (.inline []) (n + 1) rest
    refine ⟨c :: (blanks ++ taken), [], rfl, ?_⟩
    rw [List.cons_append, body]
    simp only [hblank, hline, Gap.check, Quote.char, List.cons_append, hbreak, hread, Gap.text]
    simpa [Nat.add_assoc, Nat.add_comm 1] using hskip

theorem body_encode (cs : List Char) (taken blanks : List Char) (n : Nat) (rest : List Char) :
    body .double flow indent 0 taken (.inline blanks) n (cs.flatMap encodeChar ++ '"' :: rest) =
      .ok (cs.reverse ++ (blanks ++ taken), n + ((cs.flatMap encodeChar).length + 1)) := by
  induction cs generalizing taken blanks n with
  | nil =>
    rw [List.flatMap_nil, List.nil_append, body]
    simp [isBlank, isBreak, Gap.check, Quote.char, Gap.text]
  | cons c cs ih =>
    obtain ⟨taken', blanks', heq, hbody⟩ :=
      body_written flow indent (written_encodeChar c) taken blanks n
        (cs.flatMap encodeChar ++ '"' :: rest)
    rw [List.flatMap_cons, List.append_assoc, hbody, ih, heq]
    simp [Nat.add_assoc]

theorem read_body (cs rest : List Char) :
    read .double flow indent (cs.flatMap encodeChar ++ '"' :: rest) =
      .ok (cs, (cs.flatMap encodeChar).length + 1) := by
  rw [read, body_encode]
  simp

theorem read_encode (cs rest : List Char) :
    read .double flow indent ((encode cs ++ rest).drop 1) = .ok (cs, (encode cs).length - 1) := by
  have hdrop : (encode cs ++ rest).drop 1 = cs.flatMap encodeChar ++ '"' :: rest := by
    simp [encode]
  rw [hdrop, read_body]
  simp [encode]

end

/-- Where the first quote stands that is not escaped. -/
def closing? : List Char → Option Nat
  | '\\' :: _ :: cs => (closing? cs).map (· + 2)
  | '"' :: _ => some 0
  | _ :: cs => (closing? cs).map (· + 1)
  | [] => none

theorem closing?_unmarked {cs : List Char} (h : cs.any isMark = false) (rest : List Char) :
    closing? (cs ++ rest) = (closing? rest).map (· + cs.length) := by
  induction cs with
  | nil => simp
  | cons c cs ih =>
    obtain ⟨hc, hcs⟩ := Bool.or_eq_false_iff.mp (List.any_cons.symm.trans h)
    obtain ⟨hslash, hquote⟩ := isMark_eq_false_iff.mp hc
    rw [List.cons_append, closing?, ih hcs, Option.map_map, List.length_cons]
    · congr 1
    · exact fun _ _ hc' _ => hslash hc'
    · exact hquote

theorem closing?_written {c : Char} {cs : List Char} (h : Written c cs) (rest : List Char) :
    closing? (cs ++ rest) = (closing? rest).map (· + cs.length) := by
  cases h with
  | raw hmark hsafe => exact closing?_unmarked (by simp [hmark]) rest
  | @escape x code hread hsafe hmark =>
    rw [List.cons_append, List.cons_append, closing?, closing?_unmarked hmark, Option.map_map]
    rfl

theorem closing?_body (cs rest : List Char) :
    closing? (cs.flatMap encodeChar ++ '"' :: rest) = some (cs.flatMap encodeChar).length := by
  induction cs with
  | nil => rfl
  | cons c cs ih =>
    rw [List.flatMap_cons, List.append_assoc, closing?_written (written_encodeChar c), ih,
      Option.map_some, List.length_append, Nat.add_comm]

/-- A text between quotes is read back whole, whatever comes after it. Between its quotes there is no
other quote but behind a backslash, no line break and no character that a plain text must not hold. So
texts that differ also differ between quotes. -/
theorem reading_inverts_encoding (cs : List Char) :
    ∃ inner : List Char, encode cs = '"' :: (inner ++ ['"']) ∧
      (∀ rest, closing? (inner ++ '"' :: rest) = some inner.length) ∧
      (∀ c ∈ inner, isBreak c = false ∧ isUnsafe c = false) ∧
      (∀ flow indent rest,
        read .double flow indent (inner ++ '"' :: rest) = .ok (cs, inner.length + 1)) ∧
      ∀ ds, encode ds = encode cs → ds = cs := by
  refine ⟨cs.flatMap encodeChar, rfl, closing?_body cs, fun c hc => ?_, ?_, fun ds heq => ?_⟩
  · have hsafe := Bool.eq_false_iff.mpr (List.any_eq_false.mp (body_safe cs) c hc)
    have hline : OneLine [c] := oneLine_of_clean (by simp [isControl_false hsafe])
    exact ⟨hline c List.mem_cons_self, hsafe⟩
  · exact fun flow indent rest => read_body flow indent cs rest
  · have hinner := List.append_cancel_right (List.cons.inj heq).2
    have hds := read_body false 0 ds []
    rw [hinner, read_body] at hds
    exact (Prod.mk.inj (Except.ok.inj hds)).1.symm

end YamlCodec.Lexeme.Quoted
