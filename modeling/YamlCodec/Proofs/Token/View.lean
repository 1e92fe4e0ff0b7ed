import YamlCodec.Token.Scan
import YamlCodec.Proofs.Lexeme.Gap

/-!
# What a scanner sees next

In block context, where no key is pending, all that the next steps of a scanner depend on is the text
from the next token on, its column, the open blocks and whether a key may begin. The kinds of the
tokens so far are carried along. One view leads to another by steps that each use up some text.
-/

set_option autoImplicit false

namespace YamlCodec.Token
open YamlCodec.Source YamlCodec.Lexeme

/-- The open blocks, and the kinds of the tokens so far. -/
structure Outline where
  indent : Int
  indents : List Indent
  kinds : List Kind

namespace Outline

def closeFrom (column : Int) : List Indent → Int → List Kind → Outline
  | [], indent, kinds => ⟨indent, [], kinds⟩
  | i :: is, indent, kinds =>
    if column < indent then
      closeFrom column is i.outer (if i.collection then kinds ++ [.blockEnd] else kinds)
    else ⟨indent, i :: is, kinds⟩

/-- The blocks that lie further in than a column are closed. -/
def close (o : Outline) (column : Int) : Outline := closeFrom column o.indents o.indent o.kinds

theorem close_self (o : Outline) {column : Int} (h : o.indent ≤ column) : o.close column = o := by
  obtain ⟨indent, indents, kinds⟩ := o
  cases indents with
  | nil => rfl
  | cons i is => rw [close, closeFrom, if_neg (by omega)]

/-- What a column closes is closed by columns further out. -/
theorem close_close (o : Outline) {column c : Int} (h : c ≤ column) :
    (o.close column).close c = o.close c := by
  obtain ⟨indent, indents, kinds⟩ := o
  unfold close
  induction indents generalizing indent kinds with
  | nil => rfl
  | cons i is ih =>
    by_cases hc : column < indent
    · simp only [closeFrom, if_pos hc, if_pos (show c < indent by omega)]
      exact ih i.outer _
    · simp only [closeFrom, if_neg hc]

theorem close_collection (indent outer : Int) (is : List Indent) (kinds : List Kind) {column : Int}
    (h : column < indent) :
    close ⟨indent, ⟨outer, true⟩ :: is, kinds⟩ column =
      close ⟨outer, is, kinds ++ [.blockEnd]⟩ column := by
  rw [close, closeFrom, if_pos h]
  rfl

theorem close_step (indent outer : Int) (is : List Indent) (kinds : List Kind) {column : Int}
    (h : column < indent) :
    close ⟨indent, ⟨outer, false⟩ :: is, kinds⟩ column = close ⟨outer, is, kinds⟩ column := by
  rw [close, closeFrom, if_pos h]
  rfl

end Outline

namespace Scanner

def outline (s : Scanner) : Outline := ⟨s.indent, s.indents, s.tokens.reverse.map Token.kind⟩

/-- Nothing from before the next token bears on it but the candidate for a key. -/
structure Quiet (s : Scanner) : Prop where
  flows : s.flows = []
  comment : s.comment = none
  unfinished : s.finished = false
  count : s.count = s.tokens.length
  property : s.afterProperty = false

theorem Quiet.inFlow {s : Scanner} (h : s.Quiet) : s.inFlow = false := by
  rw [Scanner.inFlow, h.flows]
  rfl

/-- The steps that are left add the ends of block collections to the tokens. -/
theorem leave_eq (column : Int) (is : List Indent) (s : Scanner) :
    ∃ ends : List Token, (∀ t ∈ ends, t.kind = .blockEnd) ∧
      leave column is { s with indents := is } =
        { s with
          indent := (Outline.closeFrom column is s.indent (s.tokens.reverse.map Token.kind)).indent
          indents := (Outline.closeFrom column is s.indent (s.tokens.reverse.map Token.kind)).indents
          tokens := ends ++ s.tokens
          count := s.count + ends.length } ∧
      (ends ++ s.tokens).reverse.map Token.kind =
        (Outline.closeFrom column is s.indent (s.tokens.reverse.map Token.kind)).kinds := by
  -- a step that ends a collection puts its token before those of the steps around it
  induction is generalizing s with
  | nil => exact ⟨[], by simp, rfl, rfl⟩
  | cons i is ih =>
    by_cases h : column < s.indent
    · cases hc : i.collection with
      | true =>
        obtain ⟨ends, hall, hleave, hkinds⟩ := ih ({ s with indent := i.outer }.emit .blockEnd s.mark)
        have hmap : (⟨.blockEnd, s.mark⟩ :: s.tokens : List Token).reverse.map Token.kind =
            s.tokens.reverse.map Token.kind ++ [.blockEnd] := by simp
        simp only [emit, hmap] at hleave hkinds
        refine ⟨ends ++ [⟨.blockEnd, s.mark⟩], ?_, ?_, ?_⟩
        · intro t ht
          rcases List.mem_append.mp ht with ht | ht
          · exact hall t ht
          · rw [List.mem_singleton.mp ht]
        · simp only [leave, Outline.closeFrom, if_pos h, hc, if_true]
          refine Eq.trans ?_ (hleave.trans ?_)
          · rfl
          · simp [Nat.add_assoc, Nat.add_comm 1]
        · simp only [Outline.closeFrom, if_pos h, hc, if_true]
          rw [← hkinds]
          simp
      | false =>
        obtain ⟨ends, hall, hleave, hkinds⟩ := ih { s with indent := i.outer }
        refine ⟨ends, hall, ?_, ?_⟩
        · simp only [leave, Outline.closeFrom, if_pos h, hc]
          exact hleave
        · simp only [Outline.closeFrom, if_pos h, hc]
          exact hkinds
    · refine ⟨[], by simp, ?_, ?_⟩
      · simp [leave, Outline.closeFrom, if_neg h]
      · simp [Outline.closeFrom, if_neg h]

theorem closeBlocks_eq {s : Scanner} (hs : s.Quiet) (column : Int) :
    ∃ tokens, s.closeBlocks column =
        { s with
          indent := (s.outline.close column).indent
          indents := (s.outline.close column).indents
          tokens := tokens
          count := tokens.length } ∧
      (s.closeBlocks column).Quiet ∧ (s.closeBlocks column).outline = s.outline.close column := by
  obtain ⟨ends, hall, hleave, hkinds⟩ := leave_eq column s.indents s
  have heq : s.closeBlocks column =
      { s with
        indent := (s.outline.close column).indent
        indents := (s.outline.close column).indents
        tokens := ends ++ s.tokens
        count := (ends ++ s.tokens).length } := by
    have hflow := hs.inFlow
    rw [closeBlocks, hflow, if_neg (by decide), List.length_append, Nat.add_comm, ← hs.count]
    exact hleave
  refine ⟨_, heq, ?_, ?_⟩
  · rw [heq]
    refine ⟨hs.flows, hs.comment, hs.unfinished, rfl, ?_⟩
    cases ends with
    | nil => exact hs.property
    | cons t ends =>
      have ht := hall t List.mem_cons_self
      obtain ⟨kind, m⟩ := t
      obtain rfl : kind = .blockEnd := ht
      rfl
  · rw [heq, outline, hkinds]
    rfl

/-- Passes to the next token, without reading it. -/
def approach (s : Scanner) : Except Failure Scanner := do
  let s ← s.dropStale
  let s ← s.toToken
  s.dropStale

/-- Reads the next token, everything before it being passed and closed. -/
def act (s : Scanner) : Except Failure Scanner :=
  match s.rest with
  | [] => s.streamEnd
  | c :: cs =>
    let first := s.cursor.column == 0
    if first && c == '%' then s.directive
    else if first && documentStartAhead (c :: cs) then s.documentMark .documentStart
    else if first && documentEndAhead (c :: cs) then s.documentEnd
    else if (s.cursor.column : Int) < s.indent && !(s.inFlow && endsEntry c) then
      s.fail .invalidIndentation
    else s.token c cs

end Scanner

/-- What lies ahead: the text from the next token on with its column, the outline once the blocks
that end there are closed, and whether a key may begin. The end of the text lies outside of all. -/
structure View where
  content : List Char
  column : Int
  outline : Outline
  keyAllowed : Bool

/-- The scanner stands before this view, with blanks and ended blocks still to pass. -/
structure Rests (s : Scanner) (v : View) : Prop where
  unfinished : s.finished = false
  approaches : ∃ t, s.approach = .ok t ∧ t.Quiet ∧ t.candidate = none ∧ t.rest = v.content ∧
    v.column = (if v.content = [] then -1 else (t.cursor.column : Int)) ∧
    t.outline.close v.column = v.outline ∧ t.keyAllowed = v.keyAllowed

/-- The scanner stands at the token of this view. -/
structure Ready (s : Scanner) (v : View) : Prop where
  quiet : s.Quiet
  candidate : s.candidate = none
  rest : s.rest = v.content
  column : (s.cursor.column : Int) = v.column
  outline : s.outline = v.outline
  keyAllowed : s.keyAllowed = v.keyAllowed

section
variable {s : Scanner} {content : List Char} {column i : Int} {is : List Indent} {kinds : List Kind}
  {keyAllowed : Bool} (h : Ready s ⟨content, column, ⟨i, is, kinds⟩, keyAllowed⟩)
include h

theorem Ready.outline_eq :
    s.indent = i ∧ s.indents = is ∧ s.tokens.reverse.map Token.kind = kinds := by
  have := h.outline
  simp only [Scanner.outline, Outline.mk.injEq] at this
  exact this

end

theorem run_approach {s t t' : Scanner} (hs : s.finished = false) (ht : s.approach = .ok t)
    (hact : (t.closeBlocks t.cursor.column).act = .ok t') (fuel : Nat) :
    run (fuel + 1) s = run fuel t' := by
  rw [run, hs, if_neg (by decide)]
  unfold Scanner.approach at ht
  cases hs₁ : s.dropStale with
  | error f => simp [hs₁, bind, Except.bind] at ht
  | ok s₁ =>
    rw [hs₁] at ht
    simp only [bind, Except.bind] at ht
    have hnext : s₁.next = .ok t' := by
      cases hs₂ : s₁.toToken with
      | error f => simp [hs₂] at ht
      | ok s₂ =>
        rw [hs₂] at ht
        simp only at ht
        have heq : s₁.next = (t.closeBlocks t.cursor.column).act := by
          unfold Scanner.next
          rw [hs₂]
          simp only [bind, Except.bind]
          rw [ht]
          rfl
        rw [heq, hact]
    simp only [hnext]

theorem run_next {s t : Scanner} (hs : s.finished = false) (hstale : s.dropStale = .ok s)
    (hnext : s.next = .ok t) (fuel : Nat) : run (fuel + 1) s = run fuel t := by
  rw [run, hs, if_neg (by decide), hstale]
  simp only [hnext]

theorem Rests.ready {s : Scanner} {v : View} (h : Rests s v) (hv : v.content ≠ []) :
    ∃ t, Ready t v ∧ ∀ t', t.act = .ok t' → ∀ fuel, run (fuel + 1) s = run fuel t' := by
  obtain ⟨t, happroach, hquiet, hcandidate, hrest, hcolumn, houtline, hkey⟩ := h.approaches
  rw [if_neg hv] at hcolumn
  obtain ⟨tokens, heq, hclosed, hout⟩ := Scanner.closeBlocks_eq hquiet (t.cursor.column : Int)
  refine ⟨t.closeBlocks t.cursor.column, ⟨hclosed, ?_, ?_, ?_, ?_, ?_⟩,
    fun t' hact => run_approach h.unfinished happroach hact⟩
  · rw [heq]
    exact hcandidate
  · rw [heq]
    exact hrest
  · rw [heq]
    exact hcolumn.symm
  · rw [hout, ← hcolumn, houtline]
  · rw [heq]
    exact hkey

/-- Every scanner before this view comes to one with a property, each step using up text. -/
def Reaches (v : View) (P : Scanner → Prop) (left : Nat) : Prop :=
  ∀ s, Rests s v → ∃ t n, P t ∧ (∀ fuel, run (n + fuel) s = run fuel t) ∧
    n + left ≤ v.content.length

/-- Every scanner before the first view comes to one before the second. -/
def Leads (v w : View) : Prop := Reaches v (fun t => Rests t w) w.content.length

theorem Leads.refl (v : View) : Leads v v :=
  fun s hs => ⟨s, 0, hs, fun fuel => by rw [Nat.zero_add], by omega⟩

theorem Leads.reaches {v w : View} {P : Scanner → Prop} {left : Nat} (hvw : Leads v w)
    (hw : Reaches w P left) : Reaches v P left := by
  intro s hs
  obtain ⟨t, n, ht, hrun, hn⟩ := hvw s hs
  obtain ⟨t', n', ht', hrun', hn'⟩ := hw t ht
  refine ⟨t', n + n', ht', fun fuel => ?_, by omega⟩
  rw [Nat.add_assoc, hrun, hrun']

theorem Leads.trans {u v w : View} (huv : Leads u v) (hvw : Leads v w) : Leads u w :=
  huv.reaches hvw

namespace Reaches
variable {v : View} {P : Scanner → Prop} {left : Nat}

/-- One token is read, and the rest is led on from where this ends. -/
theorem step_trans (hv : v.content ≠ [])
    (h : ∀ s, Ready s v → ∃ t u, s.act = .ok t ∧ Rests t u ∧
      u.content.length < v.content.length ∧ Reaches u P left) : Reaches v P left := by
  intro s hs
  obtain ⟨s', hs', hrun⟩ := hs.ready hv
  obtain ⟨t, u, hact, ht, hlt, hu⟩ := h s' hs'
  obtain ⟨t', n, ht', hrun', hn⟩ := hu t ht
  refine ⟨t', n + 1, ht', fun fuel => ?_, by omega⟩
  rw [Nat.add_right_comm, hrun t hact, hrun']

/-- Two tokens are read, the second one directly after the first. -/
theorem step_two_trans (hv : v.content ≠ [])
    (h : ∀ s, Ready s v → ∃ s₁ t u, s.act = .ok s₁ ∧ s₁.finished = false ∧ s₁.dropStale = .ok s₁ ∧
      s₁.next = .ok t ∧ Rests t u ∧ 2 + u.content.length ≤ v.content.length ∧ Reaches u P left) :
    Reaches v P left := by
  intro s hs
  obtain ⟨s', hs', hrun⟩ := hs.ready hv
  obtain ⟨s₁, t, u, hact, hfinished, hstale, hnext, ht, hle, hu⟩ := h s' hs'
  obtain ⟨t', n, ht', hrun', hn⟩ := hu t ht
  refine ⟨t', n + 2, ht', fun fuel => ?_, by omega⟩
  rw [show n + 2 + fuel = n + fuel + 1 + 1 by omega, hrun s₁ hact,
    run_next hfinished hstale hnext, hrun']

theorem step (hv : left < v.content.length) (h : ∀ s, Ready s v → ∃ t, s.act = .ok t ∧ P t) :
    Reaches v P left := by
  intro s hs
  obtain ⟨s', hs', hrun⟩ := hs.ready (List.ne_nil_of_length_pos (by omega))
  obtain ⟨t, hact, ht⟩ := h s' hs'
  exact ⟨t, 1, ht, fun fuel => by rw [Nat.add_comm, hrun t hact], by omega⟩

theorem step_two (hv : left + 1 < v.content.length)
    (h : ∀ s, Ready s v → ∃ s₁ t, s.act = .ok s₁ ∧ s₁.finished = false ∧ s₁.dropStale = .ok s₁ ∧
      s₁.next = .ok t ∧ P t) : Reaches v P left := by
  intro s hs
  obtain ⟨s', hs', hrun⟩ := hs.ready (List.ne_nil_of_length_pos (by omega))
  obtain ⟨s₁, t, hact, hfinished, hstale, hnext, ht⟩ := h s' hs'
  refine ⟨t, 2, ht, fun fuel => ?_, by omega⟩
  rw [Nat.add_comm, hrun s₁ hact, run_next hfinished hstale hnext]

end Reaches

end YamlCodec.Token
