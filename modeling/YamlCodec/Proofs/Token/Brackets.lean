import YamlCodec.Proofs.Token.Leaf

/-!
# Tokens of empty brackets

An empty flow collection is a pair of brackets, which are read one after the other.
-/

set_option autoImplicit false

namespace YamlCodec.Token
open YamlCodec.Source YamlCodec.Lexeme

structure Brackets where
  sequence : Bool

namespace Brackets

def opens (b : Brackets) : Char := if b.sequence then '[' else '{'

def closes (b : Brackets) : Char := if b.sequence then ']' else '}'

def starts (b : Brackets) : Kind := if b.sequence then .flowSequenceStart else .flowMappingStart

def ends (b : Brackets) : Kind := if b.sequence then .flowSequenceEnd else .flowMappingEnd

theorem ordinary (b : Brackets) : isBreak b.opens = false ∧ isBreak b.closes = false := by
  rw [opens, closes]
  cases b.sequence <;> decide

theorem unmarked (b : Brackets) : Unmarked b.starts ∧ Unmarked b.ends := by
  rw [starts, ends]
  cases b.sequence <;> exact ⟨trivial, trivial⟩

end Brackets

namespace Scanner
variable {s : Scanner}

theorem trail_stops (s : Scanner) (h : ∀ c ∈ s.rest.head?, isBlank c = false ∧ c ≠ '#') :
    s.trail = .ok (s, ⟨0, false, false, false⟩) := by
  have hstop := trailing_stops h 0 false false
  simp only [trail, hstop]
  rfl

/-- The scanner between brackets, the candidate before them being kept. -/
def entered (s : Scanner) (b : Brackets) (c : Option Candidate) (i : Int) (is : List Indent) :
    Scanner :=
  { s with
    candidate := none, indent := i, indents := is, flows := [⟨b.sequence, false, c⟩],
    braced := s.braced || !b.sequence, keyAllowed := true,
    cursor := s.cursor.advance 1 }.emit b.starts s.mark

theorem flowStart_eq (hs : s.Quiet) (b : Brackets) {rest : List Char}
    (hr : (s.cursor.advance 1).rest = b.closes :: rest) {c : Option Candidate} {i : Int}
    {is : List Indent}
    (hk : s.saveCandidate.indentOne = { s with candidate := c, indent := i, indents := is }) :
    s.flowStart b.sequence = .ok (s.entered b c i is) := by
  have hflows := hs.flows
  unfold flowStart
  rw [hk]
  simp only [hflows, List.length_nil, flowLimit, allowKey, advance, bind, Except.bind]
  rw [if_neg (by decide), trail_stops]
  · rfl
  · intro x hx
    have hx : x ∈ (s.cursor.advance 1).rest.head? := hx
    rw [hr] at hx
    obtain rfl : b.closes = x := Option.some.inj hx
    unfold Brackets.closes
    cases b.sequence <;> decide

theorem flowEnd_eq (b : Brackets) {rest : List Char} (hr : (s.cursor.advance 1).rest = '\n' :: rest)
    {c : Option Candidate} (hf : s.flows = [⟨b.sequence, false, c⟩]) :
    s.flowEnd b.sequence =
      .ok ({ s with
        candidate := c, flows := [], keyAllowed := false,
        cursor := s.cursor.advance 1 }.emit b.ends s.mark) := by
  have hpair : (if b.sequence then s.endPair else s) = s := by
    unfold endPair
    rw [hf]
    cases b.sequence <;> rfl
  unfold flowEnd
  rw [hf]
  simp only [hpair, forbidKey, advance, bind, Except.bind]
  rw [trail_stops]
  · rfl
  · intro x hx
    have hx : x ∈ (s.cursor.advance 1).rest.head? := hx
    rw [hr] at hx
    obtain rfl : '\n' = x := Option.some.inj hx
    decide

/-- In a flow collection a closing bracket is the next token wherever it stands. -/
theorem next_closes (b : Brackets) {rest : List Char} (hr : s.rest = b.closes :: rest)
    (hf : s.flows ≠ []) (hc : s.candidate = none) (hcomment : s.comment = none) :
    s.next = s.flowEnd b.sequence := by
  have hflow : s.inFlow = true := by
    unfold inFlow
    cases hflows : s.flows with
    | nil => exact absurd hflows hf
    | cons f fs => rfl
  have hbegins : Begins s.rest := by
    rw [hr, Brackets.closes]
    cases b.sequence <;> exact ⟨by decide, by decide, by decide⟩
  have hto : s.toToken = .ok s := by
    have hbetween := between_begins (!s.indents.isEmpty) s.indent s.cursor.fresh false hbegins 0
      s.cursor.column
    have hresumes : (s.advance 0).resumes = false := by
      unfold resumes
      have : (s.advance 0).comment = none := hcomment
      rw [this]
    unfold toToken
    rw [hbetween]
    simp only [hresumes, Bool.false_eq_true, if_false]
    rw [Bool.false_and, Bool.or_false]
    exact congrArg Except.ok (show { s with comment := none } = s by rw [← hcomment])
  have hstale : s.dropStale = .ok s := by
    unfold dropStale
    rw [hc]
  have hclose (column : Int) : s.closeBlocks column = s := by rw [closeBlocks, hflow, if_pos rfl]
  have hmark : documentMarkAhead (b.closes :: rest) = false := by
    rw [Brackets.closes]
    cases b.sequence <;> exact not_mark (by decide) (by decide) _
  simp only [documentMarkAhead, Bool.or_eq_false_iff] at hmark
  have htoken : s.token b.closes rest = s.flowEnd b.sequence := by
    rw [Brackets.closes]
    cases b.sequence <;> rfl
  have hends : (s.inFlow && endsEntry b.closes) = true := by
    rw [hflow, Brackets.closes]
    cases b.sequence <;> rfl
  have hpercent : (b.closes == '%') = false := by
    rw [Brackets.closes]
    cases b.sequence <;> rfl
  unfold next
  simp only [hto, hstale, bind, Except.bind, hclose]
  rw [hr]
  simp only [hmark.1, hmark.2, hends, hpercent, htoken, Bool.and_false, Bool.not_true,
    Bool.false_eq_true, if_false]

end Scanner

/-- Brackets are read up to the end of their line, the candidate before them being kept. -/
theorem Stands.brackets {s : Scanner} (b : Brackets) {rest : List Char} {m : Mark} {o : Outline}
    {keyAllowed : Bool} (h : Stands s (b.opens :: b.closes :: '\n' :: rest) m o keyAllowed none)
    (hi : o.indent ≤ (m.column : Int)) {c : Option Candidate} {i : Int} {is : List Indent}
    (hk : s.saveCandidate.indentOne = { s with candidate := c, indent := i, indents := is }) :
    ∃ s₁ t, s.act = .ok s₁ ∧ s₁.finished = false ∧ s₁.dropStale = .ok s₁ ∧ s₁.next = .ok t ∧
      Stands t ('\n' :: rest) ⟨m.index + 2, m.line, m.column + 2⟩
        ⟨i, is, o.kinds ++ [b.starts, b.ends]⟩ false c := by
  have hact : s.act = s.flowStart b.sequence := by
    rw [h.act_token]
    · rw [Brackets.opens]
      cases b.sequence <;> rfl
    · rw [Brackets.opens]
      cases b.sequence <;> decide
    · rw [Brackets.opens]
      cases b.sequence <;> exact not_mark (by decide) (by decide) _
    · exact hi
  have hfirst := ((h.setCandidate c).setIndents i is).advance b.ordinary.1
  have hsecond := hfirst.advance b.ordinary.2
  have hrest : (s.cursor.advance 1).rest = b.closes :: '\n' :: rest := hfirst.rest
  have hlast : ((s.cursor.advance 1).advance 1).rest = '\n' :: rest := hsecond.rest
  -- between the brackets nothing is in block context, so the state is written out there
  have hstart := Scanner.flowStart_eq h.quiet b hrest hk
  have hafter := ((hsecond.forbidKey.leaveFlow (s.braced || !b.sequence)).emit b.starts s.mark
    b.unmarked.1).emit b.ends (s.advance 1).mark b.unmarked.2
  rw [List.append_assoc] at hafter
  have hnext : (s.entered b c i is).next = (s.entered b c i is).flowEnd b.sequence :=
    Scanner.next_closes b hrest (List.cons_ne_nil _ _) rfl h.quiet.comment
  have hend := Scanner.flowEnd_eq (s := s.entered b c i is) b hlast rfl
  exact ⟨_, _, hact.trans hstart, h.quiet.unfinished, rfl, hnext.trans hend, hafter⟩

theorem leads_brackets (b : Brackets) {column i : Int} {indents is : List Indent}
    (hw : Within column indents i is) {here : Nat} (hhere : column < here) {a : Ahead}
    (hb : Begins a.content) (ha : a.column ≤ column) (kinds : List Kind) (keyAllowed : Bool) :
    Leads ⟨b.opens :: b.closes :: '\n' :: a.text, here, ⟨i, is, kinds⟩, keyAllowed⟩
      (a.view ⟨column, indents, kinds ++ [b.starts, b.ends]⟩) := by
  refine Reaches.step_two_trans (List.cons_ne_nil _ _) fun s hs => ?_
  have hle := hw.indent_le
  have hcolumn : s.mark.column = here := Int.ofNat_inj.mp hs.column
  have hstands := hs.stands
  obtain ⟨c, hsave, hc⟩ := hstands.saveCandidate_within hw (by rw [hcolumn]; exact hhere)
  obtain ⟨hindent, hindents, _⟩ := hs.outline_eq
  rw [← hindent, ← hindents] at hw
  obtain ⟨i', is', hone, hwone⟩ := Scanner.indentOne_within (s := { s with candidate := c })
    hs.quiet.flows hw
  obtain ⟨s₁, t, hact, hfinished, hstale, hnext, hafter⟩ :=
    hstands.brackets b (by rw [hcolumn]; simp only; omega) (by rw [hsave, hone])
  refine ⟨s₁, t, _, hact, hfinished, hstale, hnext, hafter.rests_next hb fun k hk =>
    ⟨(hc k hk).1, ?_⟩, ?_, ?_⟩
  · have hline : k.mark.line = s.mark.line := congrArg Mark.line (hc k hk).2
    exact Nat.le_of_eq hline
  · simp only [Ahead.view, Ahead.text, List.length_append, List.length_cons]
    omega
  · rw [Ahead.view, hwone.close ha]
    exact Leads.refl _

end YamlCodec.Token
