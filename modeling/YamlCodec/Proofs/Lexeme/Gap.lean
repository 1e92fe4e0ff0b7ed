import YamlCodec.Lexeme.Trailing
import YamlCodec.Source.Cursor

/-!
# Passing over lines and blanks

A block layout has spaces and line feeds between its tokens and nothing else. How a cursor moves over
one line and on to the next, and how far the blanks before a token reach.
-/

set_option autoImplicit false

namespace YamlCodec.Source

/-- A text without a line break in it. -/
def OneLine (cs : List Char) : Prop := ∀ c ∈ cs, isBreak c = false

theorem oneLine_blanks (k : Nat) : OneLine (List.replicate k ' ') := by
  intro c hc
  rw [List.eq_of_mem_replicate hc]
  decide

section
variable (p : Char → Bool) {cs : List Char}

/-- A gap stays one where the text is cut. -/
theorem gapAhead_takeWhile (h : gapAhead cs = true) : gapAhead (cs.takeWhile p) = true := by
  cases cs with
  | nil => rfl
  | cons c cs =>
    rw [List.takeWhile_cons]
    split
    · exact h
    · rfl

/-- So does a document mark, unless it is cut itself. -/
theorem documentMarkAhead_takeWhile (hp : p '-' = true ∧ p '.' = true)
    (h : documentMarkAhead cs = true) : documentMarkAhead (cs.takeWhile p) = true := by
  have htriple {mark : Char} (hmark : p mark = true) (h : tripleAhead mark cs = true) :
      tripleAhead mark (cs.takeWhile p) = true := by
    match cs with
    | [] | [_] | [_, _] => exact nomatch h
    | a :: b :: c :: rest =>
      simp only [tripleAhead, Bool.and_eq_true, beq_iff_eq] at h
      obtain ⟨⟨⟨rfl, rfl⟩, rfl⟩, hgap⟩ := h
      simp [tripleAhead, hmark, gapAhead_takeWhile p hgap]
  obtain hstart | hend := (Bool.or_eq_true _ _).mp h
  · exact (Bool.or_eq_true _ _).mpr (.inl (htriple hp.1 hstart))
  · exact (Bool.or_eq_true _ _).mpr (.inr (htriple hp.2 hend))

end

namespace Cursor

theorem advance_line {xs : List Char} (h : OneLine xs) (ys : List Char) (m : Mark) (f : Bool) :
    ∃ f', advance xs.length ⟨xs ++ ys, m, f⟩ =
      ⟨ys, ⟨m.index + xs.length, m.line, m.column + xs.length⟩, f'⟩ := by
  induction xs generalizing m f with
  | nil => exact ⟨f, rfl⟩
  | cons x xs ih =>
    have hx : isBreak x = false := h x List.mem_cons_self
    have hstep : step x (xs ++ ys) m = ⟨m.index + 1, m.line, m.column + 1⟩ := by
      simp only [isBreak, Bool.or_eq_false_iff] at hx
      rw [step, hx.1, hx.2]
      rfl
    obtain ⟨f', hf⟩ := ih (fun c hc => h c (List.mem_cons_of_mem x hc))
      ⟨m.index + 1, m.line, m.column + 1⟩ (isBreak x || (f && isBlank x))
    refine ⟨f', ?_⟩
    rw [List.length_cons, List.cons_append, advance, hstep, hf]
    simp [Nat.add_assoc, Nat.add_comm 1]

theorem advance_add (a b : Nat) (c : Cursor) : advance (a + b) c = advance b (advance a c) := by
  induction a generalizing c with
  | zero => rw [Nat.zero_add, advance]
  | succ a ih =>
    obtain ⟨rest, m, f⟩ := c
    cases rest with
    | nil =>
      rw [Nat.succ_add, advance, advance]
      cases b <;> rfl
    | cons x xs => rw [Nat.succ_add, advance, advance, ih]

theorem rest_advance (n : Nat) (c : Cursor) : (advance n c).rest = c.rest.drop n := by
  induction n generalizing c with
  | zero => rfl
  | succ n ih =>
    obtain ⟨rest, m, f⟩ := c
    cases rest with
    | nil => rfl
    | cons x xs => exact ih _

/-- The cursor on the next line, after the spaces it begins with. -/
theorem advance_break {xs : List Char} (h : OneLine xs) (k : Nat) (ys : List Char) (m : Mark)
    (f : Bool) :
    ∃ i f', advance (xs.length + (1 + k)) ⟨xs ++ '\n' :: (List.replicate k ' ' ++ ys), m, f⟩ =
      ⟨ys, ⟨i, m.line + 1, k⟩, f'⟩ := by
  obtain ⟨f₁, h₁⟩ := advance_line h ('\n' :: (List.replicate k ' ' ++ ys)) m f
  obtain ⟨f₂, h₂⟩ := advance_line (oneLine_blanks k) ys ⟨m.index + xs.length + 1, m.line + 1, 0⟩ true
  rw [List.length_replicate, Nat.zero_add] at h₂
  have hbreak (rest : List Char) (m : Mark) (f : Bool) :
      advance 1 ⟨'\n' :: rest, m, f⟩ = ⟨rest, ⟨m.index + 1, m.line + 1, 0⟩, true⟩ := rfl
  rw [advance_add, h₁, advance_add, hbreak, h₂]
  exact ⟨_, _, rfl⟩

theorem line_le_advance (n : Nat) (c : Cursor) : c.mark.line ≤ (advance n c).mark.line := by
  induction n generalizing c with
  | zero => exact Nat.le_refl _
  | succ n ih =>
    obtain ⟨rest, m, f⟩ := c
    cases rest with
    | nil => exact Nat.le_refl _
    | cons x xs =>
      refine Nat.le_trans ?_ (ih _)
      simp only [step]
      split
      · exact Nat.le_succ _
      · exact Nat.le_refl _

/-- Past the end of a line the cursor is on a later one. -/
theorem line_lt_advance {xs : List Char} (h : OneLine xs) {n : Nat} (hn : xs.length < n)
    (ys : List Char) (m : Mark) (f : Bool) :
    m.line < (advance n ⟨xs ++ '\n' :: ys, m, f⟩).mark.line := by
  obtain ⟨i, f', hf⟩ := advance_break h 0 ys m f
  obtain ⟨extra, rfl⟩ := Nat.exists_eq_add_of_lt hn
  have hadd : xs.length + extra + 1 = xs.length + (1 + 0) + extra := by omega
  have hline : (advance (xs.length + (1 + 0)) ⟨xs ++ '\n' :: ys, m, f⟩).mark.line = m.line + 1 :=
    congrArg (fun c => c.mark.line) hf
  have hle := line_le_advance extra (advance (xs.length + (1 + 0)) ⟨xs ++ '\n' :: ys, m, f⟩)
  rw [hadd, advance_add]
  omega

/-- What is left past the end of a line lies behind it. -/
theorem rest_suffix_advance {xs : List Char} {n : Nat} (hn : xs.length < n) (ys : List Char) (m : Mark)
    (f : Bool) : (advance n ⟨xs ++ '\n' :: ys, m, f⟩).rest <:+ ys := by
  obtain ⟨extra, rfl⟩ := Nat.exists_eq_add_of_lt hn
  rw [rest_advance, Nat.add_assoc, ← List.drop_drop, List.drop_left]
  exact List.drop_suffix extra ys

end Cursor
end YamlCodec.Source

namespace YamlCodec.Lexeme
open YamlCodec.Source

/-- A token begins here, or the text ends. -/
def Begins : List Char → Prop
  | [] => True
  | c :: _ => isBlank c = false ∧ isBreak c = false ∧ c ≠ '#'

section
variable (block : Bool) (indent : Int) (fresh crossed : Bool)

theorem between_begins {rest : List Char} (h : Begins rest) (n column : Nat) :
    between block indent n column fresh false crossed rest = ⟨n, crossed, false⟩ := by
  cases rest with
  | nil => rfl
  | cons c cs =>
    obtain ⟨hblank, hbreak, hhash⟩ := h
    simp [between, hblank, hbreak, hhash]

theorem between_blanks (k : Nat) (rest : List Char) (n column : Nat) :
    between block indent n column fresh false crossed (List.replicate k ' ' ++ rest) =
      between block indent (n + k) (column + k) fresh false crossed rest := by
  induction k generalizing n column with
  | zero => rfl
  | succ k ih =>
    have hblank : isBlank ' ' = true := by decide
    have hbreak : isBreak ' ' = false := by decide
    rw [List.replicate_succ, List.cons_append, between]
    simp [hblank, hbreak, ih, Nat.add_assoc, Nat.add_comm 1]

theorem between_inline {rest : List Char} (h : Begins rest) (k n column : Nat) :
    between block indent n column fresh false crossed (List.replicate k ' ' ++ rest) =
      ⟨n + k, crossed, false⟩ := by
  rw [between_blanks, between_begins block indent fresh crossed h]

theorem between_line {rest : List Char} (h : Begins rest) (j k n column : Nat) :
    between block indent n column fresh false crossed
        (List.replicate j ' ' ++ '\n' :: (List.replicate k ' ' ++ rest)) =
      ⟨n + (j + (1 + k)), true, false⟩ := by
  have hbreak : isBreak '\n' = true := by decide
  rw [between_blanks, between]
  simp only [hbreak, if_true]
  rw [between_inline block indent true true h]
  simp [Nat.add_assoc]

end

theorem trailing_stops {rest : List Char} (h : ∀ c ∈ rest.head?, isBlank c = false ∧ c ≠ '#')
    (n : Nat) (tab space : Bool) : trailing true n tab space rest = ⟨n, tab, space, false⟩ := by
  cases rest with
  | nil => rfl
  | cons c cs =>
    obtain ⟨hblank, hhash⟩ := h c rfl
    simp only [isBlank, Bool.or_eq_false_iff] at hblank
    simp [trailing, hblank.1, hblank.2, hhash]

theorem trailing_space {rest : List Char} (h : ∀ c ∈ rest.head?, isBlank c = false ∧ c ≠ '#') :
    trailing true 0 false false (' ' :: rest) = ⟨1, false, true, false⟩ := by
  rw [trailing]
  simp [trailing_stops h]

theorem Begins.starts {rest : List Char} (h : Begins rest) :
    ∀ c ∈ rest.head?, isBlank c = false ∧ isBreak c = false ∧ c ≠ '#' := by
  intro c hc
  cases rest with
  | nil => simp at hc
  | cons x xs =>
    obtain rfl : x = c := by simpa using hc
    exact h

theorem Begins.head {rest : List Char} (h : Begins rest) :
    ∀ c ∈ rest.head?, isBlank c = false ∧ c ≠ '#' :=
  fun c hc => ⟨(h.starts c hc).1, (h.starts c hc).2.2⟩

end YamlCodec.Lexeme
