import YamlCodec.Proofs.Token.Margin

/-!
# Where a scanner stands

The part of the state of a scanner that the reading of a token of block context depends on, and what
the single actions of a scanner do to it.
-/

set_option autoImplicit false

namespace YamlCodec.Token
open YamlCodec.Source YamlCodec.Lexeme

/-- The view after a gap: a token of the same line, or the next line. -/
inductive Follows (column : Nat) (o : Outline) (keyAllowed : Bool) : List Char → View → Prop where
  | inline (k : Nat) {rest : List Char} (hb : Begins rest) (hne : rest ≠ []) :
    Follows column o keyAllowed (List.replicate k ' ' ++ rest)
      ⟨rest, (column + k : Nat), o.close (column + k : Nat), keyAllowed⟩
  | line (j : Nat) {a : Ahead} (hb : Begins a.content) :
    Follows column o keyAllowed (List.replicate j ' ' ++ '\n' :: a.text) (a.view o)

theorem Follows.rests {s : Scanner} (hs : s.Quiet) (hc : s.candidate = none) {v : View}
    (h : Follows s.cursor.column s.outline s.keyAllowed s.rest v) : Rests s v := by
  have hk {P : Candidate → Prop} : ∀ k ∈ s.candidate, P k := by
    rw [hc]
    simp
  generalize hr : s.rest = rest at h
  cases h with
  | inline k hb hne => exact rests_inline hs hr hb hne hk
  | line j hb => exact rests_line hs hr hb hk

theorem Follows.length_le {column : Nat} {o : Outline} {keyAllowed : Bool} {rest : List Char}
    {v : View} (h : Follows column o keyAllowed rest v) : v.content.length ≤ rest.length := by
  cases h with
  | inline k hb hne => simp
  | line j hb =>
    simp only [Ahead.view, Ahead.text, List.length_append, List.length_cons]
    omega

theorem Follows.begins {column : Nat} {o : Outline} {keyAllowed : Bool} {rest : List Char}
    {v : View} (h : Follows column o keyAllowed rest v) : ∀ c ∈ rest.head?, c ≠ '\t' ∧ c ≠ '#' := by
  intro c hc
  cases h with
  | inline k hb hne =>
    cases k with
    | zero =>
      have := hb.head c hc
      refine ⟨?_, this.2⟩
      rintro rfl
      exact absurd this.1 (by decide)
    | succ k =>
      obtain rfl : ' ' = c := Option.some.inj hc
      decide
  | line j hb =>
    cases j with
    | zero =>
      obtain rfl : '\n' = c := Option.some.inj hc
      decide
    | succ j =>
      obtain rfl : ' ' = c := Option.some.inj hc
      decide

namespace Scanner
variable {s : Scanner}

theorem Quiet.emit (h : s.Quiet) (kind : Kind) (m : Mark)
    (hp : (s.emit kind m).afterProperty = false) : (s.emit kind m).Quiet :=
  ⟨h.flows, h.comment, h.unfinished, congrArg Nat.succ h.count, hp⟩

theorem outline_emit (s : Scanner) (kind : Kind) (m : Mark) :
    (s.emit kind m).outline = ⟨s.indent, s.indents, s.outline.kinds ++ [kind]⟩ := by
  simp [outline, Scanner.emit]

end Scanner

/-- The tokens that are no anchors or tags. -/
def Unmarked : Kind → Prop
  | .anchor _ => False
  | .tag _ _ => False
  | _ => True

/-- The kinds of the tokens that open a collection. -/
def starting (new : Bool) (kind : Kind) : List Kind := if new then [kind] else []

/-- All that the reading of a token of block context depends on. -/
structure Stands (s : Scanner) (rest : List Char) (m : Mark) (o : Outline) (keyAllowed : Bool)
    (candidate : Option Candidate) : Prop where
  quiet : s.Quiet
  rest : s.rest = rest
  mark : s.mark = m
  outline : s.outline = o
  keyAllowed : s.keyAllowed = keyAllowed
  candidate : s.candidate = candidate

theorem Ready.stands {s : Scanner} {v : View} (h : Ready s v) :
    Stands s v.content s.mark v.outline v.keyAllowed none :=
  ⟨h.quiet, h.rest, rfl, h.outline, h.keyAllowed, h.candidate⟩

namespace Stands
variable {s : Scanner} {rest : List Char} {m : Mark} {o : Outline} {keyAllowed : Bool}
  {candidate : Option Candidate}

theorem rests (h : Stands s rest m o keyAllowed none) {v : View}
    (hv : Follows m.column o keyAllowed rest v) : Rests s v := by
  have hcolumn : s.cursor.column = m.column := congrArg Mark.column h.mark
  rw [← hcolumn, ← h.outline, ← h.keyAllowed, ← h.rest] at hv
  exact hv.rests h.quiet h.candidate

theorem cursor_eq (h : Stands s rest m o keyAllowed candidate) :
    s.cursor = ⟨rest, m, s.cursor.fresh⟩ := by
  rw [← h.mark, ← h.rest]
  rfl

theorem advance_line {xs : List Char} (h : Stands s (xs ++ rest) m o keyAllowed candidate)
    (hx : OneLine xs) :
    Stands (s.advance xs.length) rest ⟨m.index + xs.length, m.line, m.column + xs.length⟩ o
      keyAllowed candidate := by
  obtain ⟨f, hf⟩ := Cursor.advance_line hx rest m s.cursor.fresh
  rw [← h.cursor_eq] at hf
  have hquiet := h.quiet
  refine ⟨⟨hquiet.flows, hquiet.comment, hquiet.unfinished, hquiet.count, hquiet.property⟩, ?_, ?_,
    h.outline, h.keyAllowed, h.candidate⟩
  · exact congrArg Cursor.rest hf
  · exact congrArg Cursor.mark hf

theorem advance_break {xs : List Char} {a : Ahead}
    (h : Stands s (xs ++ '\n' :: a.text) m o keyAllowed candidate) (hx : OneLine xs) :
    ∃ i, Stands (s.advance (xs.length + (1 + a.indentation))) a.content
      ⟨i, m.line + 1, a.indentation⟩ o keyAllowed candidate := by
  obtain ⟨i, f, hf⟩ := Cursor.advance_break hx a.indentation a.content m s.cursor.fresh
  rw [← Ahead.text, ← h.cursor_eq] at hf
  have hquiet := h.quiet
  refine ⟨i, ⟨hquiet.flows, hquiet.comment, hquiet.unfinished, hquiet.count, hquiet.property⟩, ?_,
    ?_, h.outline, h.keyAllowed, h.candidate⟩
  · exact congrArg Cursor.rest hf
  · exact congrArg Cursor.mark hf

theorem advance {c : Char} (h : Stands s (c :: rest) m o keyAllowed candidate)
    (hc : isBreak c = false) :
    Stands (s.advance 1) rest ⟨m.index + 1, m.line, m.column + 1⟩ o keyAllowed candidate := by
  have hline : OneLine [c] := by
    intro x hx
    rwa [List.mem_singleton.mp hx]
  exact h.advance_line hline

theorem emit (h : Stands s rest m o keyAllowed candidate) (kind : Kind) (mark : Mark)
    (hk : Unmarked kind) :
    Stands (s.emit kind mark) rest m ⟨o.indent, o.indents, o.kinds ++ [kind]⟩ keyAllowed
      candidate := by
  refine ⟨h.quiet.emit kind mark ?_, h.rest, h.mark, ?_, h.keyAllowed, h.candidate⟩
  · cases kind <;> first | rfl | exact hk.elim
  · rw [Scanner.outline_emit, ← h.outline]
    rfl

theorem insert (h : Stands s rest m o keyAllowed candidate) {p : Nat} (hp : p < o.kinds.length)
    (kind : Kind) (mark : Mark) :
    Stands (s.insert p kind mark) rest m
      ⟨o.indent, o.indents, o.kinds.take p ++ ([kind] ++ o.kinds.drop p)⟩ keyAllowed candidate := by
  have hkinds : s.tokens.reverse.map Token.kind = o.kinds := by rw [← h.outline]; rfl
  have hlength : s.tokens.length = o.kinds.length := by rw [← hkinds]; simp
  have hcount := h.quiet.count
  have hproperty := h.quiet.property
  refine ⟨⟨h.quiet.flows, h.quiet.comment, h.quiet.unfinished, ?_, ?_⟩, h.rest, h.mark, ?_,
    h.keyAllowed, h.candidate⟩
  · simp only [Scanner.insert, List.length_append, List.length_cons, List.length_take,
      List.length_drop]
    omega
  · -- the token goes before the last one, which alone is looked at
    obtain ⟨last, place, ts, ht⟩ : ∃ last place ts, s.tokens = ⟨last, place⟩ :: ts := by
      cases hts : s.tokens with
      | nil =>
        rw [hts, List.length_nil] at hlength
        omega
      | cons t ts => exact ⟨t.kind, t.mark, ts, rfl⟩
    obtain ⟨later, hl⟩ : ∃ later, s.count - p = later + 1 := ⟨s.count - p - 1, by omega⟩
    simp only [Scanner.afterProperty, ht] at hproperty
    simp only [Scanner.afterProperty, Scanner.insert, hl, ht, List.take_succ_cons, List.cons_append]
    cases last <;> exact hproperty
  · rw [← hkinds, ← h.outline]
    simp only [Scanner.outline, Scanner.insert, Outline.mk.injEq, true_and]
    rw [hcount, List.reverse_append, List.reverse_cons, List.reverse_take, List.reverse_drop]
    rw [show s.tokens.length - (s.tokens.length - p) = p by omega]
    simp

theorem allowKey (h : Stands s rest m o keyAllowed candidate) :
    Stands s.allowKey rest m o true candidate :=
  ⟨⟨h.quiet.flows, h.quiet.comment, h.quiet.unfinished, h.quiet.count, h.quiet.property⟩, h.rest,
    h.mark, h.outline, rfl, h.candidate⟩

theorem forbidKey (h : Stands s rest m o keyAllowed candidate) :
    Stands s.forbidKey rest m o false candidate :=
  ⟨⟨h.quiet.flows, h.quiet.comment, h.quiet.unfinished, h.quiet.count, h.quiet.property⟩, h.rest,
    h.mark, h.outline, rfl, h.candidate⟩

theorem setIndents (h : Stands s rest m o keyAllowed candidate) (i : Int) (is : List Indent) :
    Stands { s with indent := i, indents := is } rest m ⟨i, is, o.kinds⟩ keyAllowed candidate :=
  ⟨⟨h.quiet.flows, h.quiet.comment, h.quiet.unfinished, h.quiet.count, h.quiet.property⟩, h.rest,
    h.mark, by rw [← h.outline]; rfl, h.keyAllowed, h.candidate⟩

theorem setCandidate (h : Stands s rest m o keyAllowed candidate) (k : Option Candidate) :
    Stands { s with candidate := k } rest m o keyAllowed k :=
  ⟨⟨h.quiet.flows, h.quiet.comment, h.quiet.unfinished, h.quiet.count, h.quiet.property⟩, h.rest,
    h.mark, h.outline, h.keyAllowed, rfl⟩

theorem leaveFlow (h : Stands s rest m o keyAllowed candidate) (braced : Bool) :
    Stands { s with flows := [], braced } rest m o keyAllowed candidate :=
  ⟨⟨rfl, h.quiet.comment, h.quiet.unfinished, h.quiet.count, h.quiet.property⟩, h.rest, h.mark,
    h.outline, h.keyAllowed, h.candidate⟩

theorem dropCandidate (h : Stands s rest m o keyAllowed none) : s.dropCandidate = .ok s := by
  unfold Scanner.dropCandidate
  rw [h.candidate]

theorem toToken (h : Stands s rest m o keyAllowed candidate) (hb : Begins rest) :
    s.toToken = .ok s := by
  have hbetween := between_begins (!s.indents.isEmpty) s.indent s.cursor.fresh false hb 0
    s.cursor.column
  rw [← h.rest] at hbetween
  rw [toToken_eq h.quiet hbetween, Bool.or_false]
  rfl

theorem toToken_line {a : Ahead} (h : Stands s ('\n' :: a.text) m o keyAllowed candidate)
    (hb : Begins a.content) :
    ∃ t i, s.toToken = .ok t ∧
      Stands t a.content ⟨i, m.line + 1, a.indentation⟩ o true candidate := by
  have hbetween := between_line (!s.indents.isEmpty) s.indent s.cursor.fresh false hb 0
    a.indentation 0 s.cursor.column
  have hrest : s.rest =
      List.replicate 0 ' ' ++ '\n' :: (List.replicate a.indentation ' ' ++ a.content) := h.rest
  rw [← hrest] at hbetween
  have hto := toToken_eq h.quiet hbetween
  rw [Bool.or_true, Nat.zero_add] at hto
  have hempty : Stands s ([] ++ '\n' :: a.text) m o keyAllowed candidate := h
  obtain ⟨i, hafter⟩ := hempty.advance_break (by simp [OneLine])
  exact ⟨_, i, hto, hafter.allowKey⟩

theorem trail_space (h : Stands s (' ' :: rest) m o keyAllowed candidate)
    (hr : ∀ c ∈ rest.head?, isBlank c = false ∧ c ≠ '#') :
    s.trail = .ok (s.advance 1, ⟨1, false, true, false⟩) := by
  unfold Scanner.trail
  rw [h.rest, trailing_space hr]
  rfl

section
variable {column : Nat} {outer : Int} {indents : List Indent} {new : Bool}

theorem indent_eq (h : Stands s rest m o keyAllowed candidate) :
    s.indent = o.indent ∧ s.indents = o.indents :=
  ⟨congrArg Outline.indent h.outline, congrArg Outline.indents h.outline⟩

theorem closeBlocks (h : Stands s rest m o keyAllowed candidate)
    (hi : o.indent ≤ (m.column : Int)) :
    s.closeBlocks m.column = s := by
  rw [← h.indent_eq.1] at hi
  rw [Scanner.closeBlocks, h.quiet.inFlow, if_neg (by decide)]
  cases hs : s.indents with
  | nil => rfl
  | cons j js => rw [Scanner.leave, if_neg (by omega)]

theorem rests_start {a : Ahead} (h : Stands s a.content m o true candidate)
    (hm : m.column = a.indentation) (hb : Begins a.content)
    (hk : ∀ k ∈ candidate, k.required = false ∧ k.mark.line < m.line) : Rests s (a.view o) := by
  rw [← h.candidate, ← h.mark] at hk
  rw [← h.mark] at hm
  rw [← h.outline]
  exact rests_here h.quiet h.rest hm hb h.keyAllowed hk

theorem rests_next {a : Ahead} (h : Stands s ('\n' :: a.text) m o keyAllowed candidate)
    (hb : Begins a.content) (hk : ∀ k ∈ candidate, k.required = false ∧ k.mark.line ≤ m.line) :
    Rests s (a.view o) := by
  rw [← h.candidate, ← h.mark] at hk
  rw [← h.outline]
  exact rests_line h.quiet (j := 0) h.rest hb hk

theorem saveCandidate_within {column : Int} (h : Stands s rest m o keyAllowed none)
    (hw : Within column indents o.indent o.indents) (hc : column < m.column) :
    ∃ c, s.saveCandidate = { s with candidate := c } ∧
      ∀ k ∈ c, k.required = false ∧ k.mark = m := by
  rw [← h.indent_eq.1, ← h.indent_eq.2] at hw
  rw [← h.mark] at hc ⊢
  exact Scanner.saveCandidate_within h.candidate hw hc

theorem openBlock (h : Stands s rest m o keyAllowed candidate)
    (kind : Kind) (mark : Mark) (hk : Unmarked kind)
    (he : Enters column outer indents o.indent o.indents new) :
    Stands (s.openBlock column none kind mark) rest m
      ⟨column, ⟨outer, true⟩ :: indents, o.kinds ++ starting new kind⟩ keyAllowed candidate := by
  rw [← h.indent_eq.1, ← h.indent_eq.2] at he
  rw [Scanner.openBlock_enters h.quiet.flows he]
  have hset := h.setIndents column (⟨outer, true⟩ :: indents)
  cases new with
  | true => exact hset.emit kind mark hk
  | false =>
    rw [starting, if_neg (by decide), List.append_nil]
    exact hset

theorem indentOne (h : Stands s rest m o keyAllowed candidate) {column : Int}
    (hw : Within column indents o.indent o.indents) :
    ∃ i is, Stands s.indentOne rest m ⟨i, is, o.kinds⟩ keyAllowed candidate ∧
      Within column indents i is := by
  rw [← h.indent_eq.1, ← h.indent_eq.2] at hw
  obtain ⟨i, is, hone, hwithin⟩ := Scanner.indentOne_within h.quiet.flows hw
  refine ⟨i, is, ?_, hwithin⟩
  rw [hone]
  exact h.setIndents i is

theorem openBlockAt (h : Stands s rest m o keyAllowed candidate) {p : Nat} (hp : p < o.kinds.length)
    (kind : Kind) (mark : Mark) (he : Enters column outer indents o.indent o.indents new) :
    Stands (s.openBlock column (some p) kind mark) rest m
      ⟨column, ⟨outer, true⟩ :: indents,
        o.kinds.take p ++ starting new kind ++ o.kinds.drop p⟩ keyAllowed candidate := by
  rw [← h.indent_eq.1, ← h.indent_eq.2] at he
  rw [Scanner.openBlock_enters h.quiet.flows he]
  have hset := h.setIndents column (⟨outer, true⟩ :: indents)
  cases new with
  | true =>
    rw [List.append_assoc]
    exact hset.insert hp kind mark
  | false =>
    rw [starting, if_neg (by decide), List.append_nil, List.take_append_drop]
    exact hset

end
end Stands
end YamlCodec.Token
