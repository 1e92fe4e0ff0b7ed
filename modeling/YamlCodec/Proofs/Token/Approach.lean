import YamlCodec.Proofs.Token.View

/-!
# Passing to the next token

After a token come spaces up to the next one on the same line, or the end of the line and the spaces
that the next line begins with. A candidate for a key is given up on the way to another line.
-/

set_option autoImplicit false

namespace YamlCodec.Token
open YamlCodec.Source YamlCodec.Lexeme

/-- A line: the spaces it begins with and the rest of the text from its first token on. -/
structure Ahead where
  indentation : Nat
  content : List Char

namespace Ahead

def text (a : Ahead) : List Char := List.replicate a.indentation ' ' ++ a.content

/-- The column of the line; the end of the text lies outside of all blocks. -/
def column (a : Ahead) : Int := if a.content = [] then -1 else a.indentation

/-- The view before a line, once blocks that end there are closed. -/
def view (a : Ahead) (o : Outline) : View := ⟨a.content, a.column, o.close a.column, true⟩

theorem view_within {k : Nat} {content : List Char} (hne : content ≠ []) (o : Outline)
    (h : o.indent ≤ (k : Int)) : view ⟨k, content⟩ o = ⟨content, k, o, true⟩ := by
  rw [view, column, if_neg hne, Outline.close_self o h]

end Ahead

theorem dropStale_idle {s : Scanner} (hk : ∀ k ∈ s.candidate, k.required = false) :
    ∃ c, (c = none ∨ c = s.candidate) ∧ s.dropStale = .ok { s with candidate := c } := by
  unfold Scanner.dropStale
  cases hc : s.candidate with
  | none =>
    exact ⟨none, .inl rfl, congrArg Except.ok (show s = { s with candidate := none } by rw [← hc])⟩
  | some k =>
    have hr : k.required = false := hk k hc
    simp only
    split
    · refine ⟨none, .inl rfl, ?_⟩
      simp [Scanner.dropCandidate, hc, hr]
    · exact ⟨some k, .inr rfl,
        congrArg Except.ok (show s = { s with candidate := some k } by rw [← hc])⟩

theorem dropStale_past {s : Scanner} (hs : s.inFlow = false)
    (hk : ∀ k ∈ s.candidate, k.required = false ∧ k.mark.line < s.mark.line) :
    s.dropStale = .ok { s with candidate := none } := by
  unfold Scanner.dropStale
  cases hc : s.candidate with
  | none => exact congrArg Except.ok (show s = { s with candidate := none } by rw [← hc])
  | some k =>
    obtain ⟨hr, hl⟩ := hk k hc
    simp [hs, hl, Scanner.dropCandidate, hc, hr]

section
variable {s : Scanner} (hs : s.Quiet)
include hs

theorem toToken_eq {n : Nat} {crossed : Bool}
    (hb : between (!s.indents.isEmpty) s.indent 0 s.cursor.column s.cursor.fresh false false s.rest =
      ⟨n, crossed, false⟩) :
    s.toToken = .ok { s.advance n with keyAllowed := s.keyAllowed || crossed } := by
  have hresumes : (s.advance n).resumes = false := by
    unfold Scanner.resumes
    have hcomment : (s.advance n).comment = none := hs.comment
    rw [hcomment]
  have hflow := hs.inFlow
  have hcomment := hs.comment
  unfold Scanner.toToken
  rw [hb]
  simp only [hresumes, Bool.false_eq_true, if_false]
  simp only [Scanner.advance, Scanner.inFlow] at *
  rw [hflow]
  simp [hcomment]

theorem rests_of_between {n : Nat} {crossed : Bool} {rest : List Char} {m : Mark} {f : Bool}
    (hb : between (!s.indents.isEmpty) s.indent 0 s.cursor.column s.cursor.fresh false false s.rest =
      ⟨n, crossed, false⟩)
    (ha : s.cursor.advance n = ⟨rest, m, f⟩)
    (hk : ∀ k ∈ s.candidate, k.required = false ∧ k.mark.line < m.line) (column : Int)
    (hc : column = if rest = [] then -1 else (m.column : Int)) :
    Rests s ⟨rest, column, s.outline.close column, s.keyAllowed || crossed⟩ := by
  obtain ⟨c, hcand, hdrop⟩ := dropStale_idle fun k hm => (hk k hm).1
  have hs₁ : ({ s with candidate := c } : Scanner).Quiet :=
    ⟨hs.flows, hs.comment, hs.unfinished, hs.count, hs.property⟩
  have htoken := toToken_eq hs₁ hb
  have hs₂ : ({ s with
      candidate := c, cursor := ⟨rest, m, f⟩, keyAllowed := s.keyAllowed || crossed } :
      Scanner).Quiet :=
    ⟨hs.flows, hs.comment, hs.unfinished, hs.count, hs.property⟩
  have hlast := dropStale_past hs₂.inFlow fun k hm => by
    rcases hcand with rfl | rfl
    · simp at hm
    · exact hk k hm
  refine ⟨hs.unfinished, { s with
      candidate := none, cursor := ⟨rest, m, f⟩, keyAllowed := s.keyAllowed || crossed }, ?_,
    ⟨hs.flows, hs.comment, hs.unfinished, hs.count, hs.property⟩, rfl, rfl, hc, rfl, rfl⟩
  unfold Scanner.approach
  rw [hdrop]
  simp only [bind, Except.bind, htoken, Scanner.advance, ha]
  exact hlast

theorem rests_inline {k : Nat} {rest : List Char} (hr : s.rest = List.replicate k ' ' ++ rest)
    (hb : Begins rest) (hne : rest ≠ [])
    (hk : ∀ k ∈ s.candidate, k.required = false ∧ k.mark.line < s.mark.line) :
    Rests s ⟨rest, (s.cursor.column + k : Nat),
      s.outline.close (s.cursor.column + k : Nat), s.keyAllowed⟩ := by
  obtain ⟨f, hf⟩ := Cursor.advance_line (oneLine_blanks k) rest s.mark s.cursor.fresh
  have hcursor : s.cursor = ⟨List.replicate k ' ' ++ rest, s.mark, s.cursor.fresh⟩ := by
    rw [← hr]
    rfl
  rw [← hcursor, List.length_replicate] at hf
  have hbetween := between_inline (!s.indents.isEmpty) s.indent s.cursor.fresh false hb k 0
    s.cursor.column
  rw [← hr, Nat.zero_add] at hbetween
  have := rests_of_between hs hbetween hf hk _ (if_neg hne).symm
  rw [Bool.or_false] at this
  exact this

/-- Up to the token of the next line, or to the end of the text. -/
theorem rests_line {j : Nat} {a : Ahead} (hr : s.rest = List.replicate j ' ' ++ '\n' :: a.text)
    (hb : Begins a.content)
    (hk : ∀ k ∈ s.candidate, k.required = false ∧ k.mark.line ≤ s.mark.line) :
    Rests s (a.view s.outline) := by
  obtain ⟨i, f, hf⟩ := Cursor.advance_break (oneLine_blanks j) a.indentation a.content s.mark
    s.cursor.fresh
  have hcursor : s.cursor = ⟨List.replicate j ' ' ++ '\n' :: a.text, s.mark, s.cursor.fresh⟩ := by
    rw [← hr]
    rfl
  rw [← Ahead.text, ← hcursor, List.length_replicate] at hf
  have hbetween := between_line (!s.indents.isEmpty) s.indent s.cursor.fresh false hb j a.indentation 0
    s.cursor.column
  rw [← Ahead.text, ← hr, Nat.zero_add] at hbetween
  have := rests_of_between hs hbetween hf (fun k hm => ⟨(hk k hm).1, Nat.lt_succ_of_le (hk k hm).2⟩)
    a.column rfl
  rw [Bool.or_true] at this
  exact this

/-- At the token of a new line, or at the end of the text. -/
theorem rests_here {a : Ahead} (hr : s.rest = a.content) (hcol : s.cursor.column = a.indentation)
    (hb : Begins a.content) (hkey : s.keyAllowed = true)
    (hk : ∀ k ∈ s.candidate, k.required = false ∧ k.mark.line < s.mark.line) :
    Rests s (a.view s.outline) := by
  have hbetween := between_begins (!s.indents.isEmpty) s.indent s.cursor.fresh false hb 0
    s.cursor.column
  rw [← hr] at hbetween
  have hf : s.cursor.advance 0 = ⟨a.content, s.mark, s.cursor.fresh⟩ := by
    rw [← hr]
    rfl
  have hcolumn : s.mark.column = a.indentation := hcol
  have := rests_of_between hs hbetween hf hk a.column (by rw [Ahead.column, hcolumn])
  rw [hkey, Bool.true_or] at this
  exact this

end

end YamlCodec.Token
