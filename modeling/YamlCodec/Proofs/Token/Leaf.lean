import YamlCodec.Proofs.Lexeme.Plain
import YamlCodec.Proofs.Lexeme.Quoted
import YamlCodec.Proofs.Token.Standing

/-!
# Tokens of leaves

A plain or a quoted scalar is read up to the next line.
-/

set_option autoImplicit false

namespace YamlCodec.Token
open YamlCodec.Source YamlCodec.Lexeme

namespace Scanner
variable {s : Scanner}

theorem token_plain (hs : s.inFlow = false) {c : Char} {cs : List Char}
    (hind : Scalar.isIndicator c = false)
    (hgap : c = '-' ∨ c = '?' ∨ c = ':' → gapAhead cs = false) :
    s.token c cs = s.plainScalar := by
  have hdash : (c == '-' && gapAhead cs) = false := by
    rw [Bool.and_eq_false_imp, beq_iff_eq]
    exact fun h => hgap (.inl h)
  have hmark : (c == '?' && gapAhead cs) = false := by
    rw [Bool.and_eq_false_imp, beq_iff_eq]
    exact fun h => hgap (.inr (.inl h))
  have hcolon : (c == ':' && gapAhead cs) = false := by
    rw [Bool.and_eq_false_imp, beq_iff_eq]
    exact fun h => hgap (.inr (.inr h))
  simp only [Scalar.isIndicator, List.contains_cons, Bool.or_eq_false_iff] at hind
  unfold token
  simp [hdash, hmark, hcolon, hs, hind]

end Scanner

theorem not_mark {c : Char} (hd : c ≠ '-') (hp : c ≠ '.') (cs : List Char) :
    documentMarkAhead (c :: cs) = false := by
  have htriple {mark : Char} (h : c ≠ mark) : tripleAhead mark (c :: cs) = false := by
    unfold tripleAhead
    split <;> simp_all
  rw [documentMarkAhead, documentStartAhead, documentEndAhead, htriple hd, htriple hp]
  rfl

theorem not_mark_of_ne {c d : Char} (h : c ≠ d) (cs : List Char) :
    documentMarkAhead (c :: d :: cs) = false := by
  have htriple (mark : Char) : tripleAhead mark (c :: d :: cs) = false := by
    cases cs with
    | nil => rfl
    | cons x xs =>
      have : ¬ (c = mark ∧ d = mark) := fun ⟨hc, hd⟩ => h (hc.trans hd.symm)
      simp only [tripleAhead, Bool.and_eq_false_iff, beq_eq_false_iff_ne]
      by_cases hc : c = mark
      · exact .inl (.inl (.inr fun hd => this ⟨hc, hd⟩))
      · exact .inl (.inl (.inl hc))
  rw [documentMarkAhead, documentStartAhead, documentEndAhead, htriple, htriple]
  rfl

theorem tripleAhead_append {mark c : Char} {cs rest : List Char}
    (hr : ∀ x ∈ rest.head?, x ≠ mark) (h : Scalar.beginsThrice mark (c :: cs) = false) :
    tripleAhead mark (c :: (cs ++ rest)) = false := by
  cases cs with
  | nil =>
    cases rest with
    | nil => rfl
    | cons x rest =>
      have hx := hr x rfl
      cases rest with
      | nil => rfl
      | cons y rest => simp [tripleAhead, hx]
  | cons x cs =>
    cases cs with
    | nil =>
      cases rest with
      | nil => rfl
      | cons y rest =>
        have hy := hr y rfl
        simp [tripleAhead, hy]
    | cons y cs =>
      simp only [Scalar.beginsThrice] at h
      simp [tripleAhead, h]

theorem plain_begins {c : Char} {cs rest : List Char} (h : Scalar.isPlainSafe (c :: cs) = true)
    (hr : ∀ x ∈ rest.head?, x = ':' ∨ x = '\n') :
    Scalar.isIndicator c = false ∧ c ≠ ' ' ∧
      (c = '-' ∨ c = '?' ∨ c = ':' → gapAhead (cs ++ rest) = false) ∧
      documentMarkAhead (c :: (cs ++ rest)) = false := by
  have hruns := Plain.runs_of_safe h
  simp only [Scalar.isPlainSafe, Scalar.beginsPlain, Bool.and_eq_true, Bool.not_eq_true',
    bne_iff_ne] at h
  obtain ⟨⟨⟨⟨⟨⟨⟨⟨hspace, hind⟩, hmark⟩, hdash⟩, hdot⟩, _⟩, _⟩, _⟩, _⟩ := h
  refine ⟨hind, hspace, fun hc => ?_, ?_⟩
  · have hc : (c == '-' || c == '?' || c == ':') = true := by
      simpa [or_assoc] using hc
    rw [hc, Bool.true_and, Bool.or_eq_false_iff] at hmark
    cases cs with
    | nil => simp at hmark
    | cons x cs =>
      have hx : x ≠ ' ' := by simpa using hmark.2
      obtain ⟨hbreak, htab, _⟩ := Plain.safe_ordinary (hruns.safe x (by simp))
      simp [gapAhead, isBlank, hx, htab, hbreak]
  · have hrest {mark : Char} (hm : ':' ≠ mark ∧ '\n' ≠ mark) : ∀ x ∈ rest.head?, x ≠ mark := by
      intro x hx
      rcases hr x hx with rfl | rfl
      · exact hm.1
      · exact hm.2
    rw [documentMarkAhead, documentStartAhead, documentEndAhead,
      tripleAhead_append (hrest (by decide)) hdash, tripleAhead_append (hrest (by decide)) hdot]
    rfl

theorem begins_plain {cs rest : List Char} (h : Scalar.isPlainSafe cs = true)
    (hr : ∀ x ∈ rest.head?, x = ':' ∨ x = '\n') : Begins (cs ++ rest) := by
  match cs, h with
  | c :: cs, h =>
    obtain ⟨_, hspace, _, _⟩ := plain_begins h hr
    have hruns := Plain.runs_of_safe h
    obtain ⟨hbreak, htab, _⟩ := Plain.safe_ordinary (hruns.safe c List.mem_cons_self)
    refine ⟨?_, hbreak, hruns.hash c List.mem_cons_self⟩
    simp [isBlank, hspace, htab]

namespace Scanner
variable {s : Scanner}

/-- A plain scalar leaves the steps of indentation that the block around it does not need. -/
theorem plainScalar_eq (hs : s.Quiet) {column : Int} {indents : List Indent}
    (hw : Within column indents s.indent s.indents) (hc : Collected indents)
    (hm : documentMarkAhead s.rest = false) {r : Plain.Result}
    (hr : Plain.read false (column + 1) [] Plain.Gap.none 0 s.rest = .ok r)
    {c : Option Candidate} (hk : s.saveCandidate = { s with candidate := c }) :
    s.plainScalar =
      .ok ({ s with
        candidate := c
        indent := column
        indents := indents
        keyAllowed := r.crossed
        comment := if r.commented then some (s.cursor.advance r.length).mark.line else s.comment
        cursor := s.cursor.advance r.length }.emit (.scalar r.text.reverse .plain) s.mark) := by
  have hflow := hs.inFlow
  have hout : s.saveCandidate.forbidKey.outdentSteps =
      { s with candidate := c, keyAllowed := false, indent := column, indents := indents } := by
    rw [hk]
    exact outdentSteps_within (s := { s with candidate := c, keyAllowed := false }) hw hc
  have hrest : ({ s with
      candidate := c, keyAllowed := false, indent := column, indents := indents } : Scanner).rest =
      s.rest := rfl
  have hinflow : ({ s with
      candidate := c, keyAllowed := false, indent := column, indents := indents } : Scanner).inFlow =
      false := hflow
  obtain ⟨text, n, crossed, commented⟩ := r
  unfold plainScalar
  simp only [hout, hinflow, hrest, hm, hr, lift, bind, Except.bind, Bool.false_and, Bool.and_false,
    Bool.false_eq_true, if_false]
  cases crossed <;> cases commented <;> rfl

theorem quotedScalar_eq (hs : s.Quiet) {cs tail : List Char}
    (hr : s.rest = Scalar.Quoted.encode cs ++ tail)
    (htail : ∀ x ∈ tail.head?, isBlank x = false ∧ x ≠ '#')
    {c : Option Candidate} (hk : s.saveCandidate = { s with candidate := c }) {cur : Cursor}
    (ha : s.cursor.advance (Scalar.Quoted.encode cs).length = cur) (hcur : cur.rest = tail)
    {t : Scanner}
    (hmay : mayFollowQuote
      { s with candidate := c, keyAllowed := false, cursor := cur } s.mark.line = true)
    (hto : toToken { s with candidate := c, keyAllowed := false, cursor := cur } = .ok t) :
    s.quotedScalar .double =
      .ok ({ t with adjacent := t.mark.index }.emit (.scalar cs .doubleQuoted) s.mark) := by
  have hread := Quoted.read_encode false s.indent cs tail
  rw [← hr] at hread
  have hlength : (Scalar.Quoted.encode cs).length - 1 + 1 = (Scalar.Quoted.encode cs).length := by
    simp [Scalar.Quoted.encode]
  have hflow : ({ s with candidate := c, keyAllowed := false } : Scanner).inFlow = false :=
    hs.inFlow
  have hrest : ({ s with candidate := c, keyAllowed := false } : Scanner).rest = s.rest := rfl
  have hadvance : ({ s with candidate := c, keyAllowed := false } : Scanner).advance
      (Scalar.Quoted.encode cs).length =
        { s with candidate := c, keyAllowed := false, cursor := cur } := by
    rw [advance]
    simp only [ha]
  have htrail : trail { s with candidate := c, keyAllowed := false, cursor := cur } =
      .ok ({ s with candidate := c, keyAllowed := false, cursor := cur },
        ⟨0, false, false, false⟩) := by
    have hstop := trailing_stops htail 0 false false
    simp only [trail, rest, hcur, hstop]
    rfl
  unfold quotedScalar
  rw [hk]
  simp only [forbidKey, hflow, hrest, hread, lift, bind, Except.bind, hlength, hadvance, htrail,
    hmay, if_true, hto]
  rfl

end Scanner

namespace Stands
variable {s : Scanner} {m : Mark} {o : Outline} {keyAllowed : Bool}

/-- A token that is neither further out than its block nor a mark of the first column. -/
theorem act_token {c : Char} {cs : List Char} {candidate : Option Candidate}
    (h : Stands s (c :: cs) m o keyAllowed candidate) (hc : c ≠ '%')
    (hm : documentMarkAhead (c :: cs) = false) (hi : o.indent ≤ (m.column : Int)) :
    s.act = s.token c cs := by
  simp only [documentMarkAhead, Bool.or_eq_false_iff] at hm
  have hcolumn : s.cursor.column = m.column := congrArg Mark.column h.mark
  have hout : ¬ (s.cursor.column : Int) < s.indent := by
    rw [hcolumn, h.indent_eq.1]
    omega
  unfold Scanner.act
  rw [h.rest]
  simp [hm.1, hm.2, hc, hout]

/-- A safe text is read as far as a plain scalar goes on. -/
theorem plainReads {cs tail : List Char} (h : Stands s (cs ++ tail) m o keyAllowed none)
    (hsafe : Scalar.isPlainSafe cs = true) (ht : ∀ x ∈ tail.head?, x = ':' ∨ x = '\n')
    (hi : o.indent ≤ (m.column : Int)) {column : Int} {indents : List Indent}
    (hw : Within column indents o.indent o.indents) (hc : Collected indents) {r : Plain.Result}
    (hr : Plain.read false (column + 1) [] Plain.Gap.none 0 (cs ++ tail) = .ok r)
    {c : Option Candidate} (hk : s.saveCandidate = { s with candidate := c }) :
    s.act =
      .ok ({ s with
        candidate := c
        indent := column
        indents := indents
        keyAllowed := r.crossed
        comment := if r.commented then some (s.cursor.advance r.length).mark.line else s.comment
        cursor := s.cursor.advance r.length }.emit (.scalar r.text.reverse .plain) m) := by
  match cs, hsafe with
  | x :: cs, hsafe =>
    obtain ⟨hind, _, hgap, hmark⟩ := plain_begins hsafe ht
    have hne : x ≠ '%' := by
      rintro rfl
      exact absurd hind (by decide)
    have hact : s.act = s.plainScalar :=
      (h.act_token hne hmark hi).trans (Scanner.token_plain h.quiet.inFlow hind hgap)
    rw [← h.indent_eq.1, ← h.indent_eq.2] at hw
    rw [← h.rest] at hr
    have hmark' : documentMarkAhead s.rest = false := by
      rw [h.rest]
      exact hmark
    have hplain := Scanner.plainScalar_eq h.quiet hw hc hmark' hr hk
    rw [h.mark] at hplain
    exact hact.trans hplain

/-- The same where it ends with the text and no comment follows. -/
theorem plainScalar {cs tail : List Char} (h : Stands s (cs ++ tail) m o keyAllowed none)
    (hsafe : Scalar.isPlainSafe cs = true) (ht : ∀ x ∈ tail.head?, x = ':' ∨ x = '\n')
    (hi : o.indent ≤ (m.column : Int)) {column : Int} {indents : List Indent}
    (hw : Within column indents o.indent o.indents) (hc : Collected indents) {n : Nat}
    {crossed : Bool}
    (hr : Plain.read false (column + 1) [] Plain.Gap.none 0 (cs ++ tail) =
      .ok ⟨cs.reverse, n, crossed, false⟩)
    {c : Option Candidate} (hk : s.saveCandidate = { s with candidate := c }) :
    s.act =
      .ok ({ s with
        candidate := c
        indent := column
        indents := indents
        keyAllowed := crossed
        cursor := s.cursor.advance n }.emit (.scalar cs .plain) m) := by
  have hact := h.plainReads hsafe ht hi hw hc hr hk
  rw [List.reverse_reverse] at hact
  exact hact

theorem mayFollowQuote {c : Char} {rest : List Char} {candidate : Option Candidate}
    (h : Stands s (c :: rest) m o keyAllowed candidate) (hc : c = ':' ∨ c = '\n') :
    s.mayFollowQuote m.line = true := by
  unfold Scanner.mayFollowQuote
  rw [h.rest, h.mark]
  rcases hc with rfl | rfl <;> simp [isBreak]

theorem setAdjacent {rest : List Char} {candidate : Option Candidate}
    (h : Stands s rest m o keyAllowed candidate) (n : Nat) :
    Stands { s with adjacent := n } rest m o keyAllowed candidate :=
  ⟨⟨h.quiet.flows, h.quiet.comment, h.quiet.unfinished, h.quiet.count, h.quiet.property⟩, h.rest,
    h.mark, h.outline, h.keyAllowed, h.candidate⟩

/-- After a quoted scalar comes the place where the scanner stands when it has passed the gap. -/
theorem quotedScalar {cs tail : List Char} {x : Char}
    (h : Stands s (Scalar.Quoted.encode cs ++ x :: tail) m o keyAllowed none)
    (hx : x = ':' ∨ x = '\n') (hi : o.indent ≤ (m.column : Int)) {c : Option Candidate}
    (hk : s.saveCandidate = { s with candidate := c }) :
    ∃ w, Stands w (x :: tail) ⟨m.index + (Scalar.Quoted.encode cs).length, m.line,
          m.column + (Scalar.Quoted.encode cs).length⟩ o false c ∧
      ∀ t, w.toToken = .ok t →
        s.act = .ok ({ t with adjacent := t.mark.index }.emit (.scalar cs .doubleQuoted) m) := by
  have hact : s.act = s.quotedScalar .double := by
    have hcons : Stands s ('"' :: (cs.flatMap Scalar.Quoted.encodeChar ++ ['"'] ++ x :: tail)) m o
        keyAllowed none := h
    rw [hcons.act_token (by decide) (not_mark (by decide) (by decide) _) hi]
    rfl
  have hline := Quoted.oneLine_of_clean (Quoted.encode_clean cs)
  have hafter := (h.advance_line hline).forbidKey.setCandidate c
  have htail : ∀ y ∈ (x :: tail).head?, isBlank y = false ∧ y ≠ '#' := by
    intro y hy
    obtain rfl := Option.some.inj hy
    rcases hx with rfl | rfl <;> decide
  have hmay := hafter.mayFollowQuote hx
  refine ⟨_, hafter, fun t ht => ?_⟩
  rw [hact, ← h.mark]
  rw [← h.mark] at hmay
  exact Scanner.quotedScalar_eq h.quiet h.rest htail hk rfl hafter.rest hmay ht

/-- A plain scalar that ends with its line is read up to the token of the next one. -/
theorem plainLine {cs : List Char} {a : Ahead} (h : Stands s (cs ++ '\n' :: a.text) m o keyAllowed none)
    (hsafe : Scalar.isPlainSafe cs = true) (hb : Begins a.content) (hi : o.indent ≤ (m.column : Int))
    {column : Int} {indents : List Indent} (hw : Within column indents o.indent o.indents)
    (hc : Collected indents) (hend : a.content = [] ∨ (a.indentation : Int) < column + 1)
    {c : Option Candidate} (hk : s.saveCandidate = { s with candidate := c }) :
    ∃ t i, s.act = .ok t ∧ Stands t a.content ⟨i, m.line + 1, a.indentation⟩
      ⟨column, indents, o.kinds ++ [.scalar cs .plain]⟩ true c := by
  have hact := h.plainScalar hsafe (by simp) hi hw hc (Plain.read_line hsafe hb hend) hk
  obtain ⟨index, hafter⟩ := h.advance_break (Plain.runs_of_safe hsafe).oneLine
  exact ⟨_, index, hact, ((hafter.setIndents column indents).allowKey.setCandidate c).emit
    (.scalar cs .plain) m trivial⟩

/-- A quoted scalar is read up to the token of the next line. -/
theorem quotedLine {cs : List Char} {a : Ahead}
    (h : Stands s (Scalar.Quoted.encode cs ++ '\n' :: a.text) m o keyAllowed none)
    (hb : Begins a.content) (hi : o.indent ≤ (m.column : Int)) {c : Option Candidate}
    (hk : s.saveCandidate = { s with candidate := c }) :
    ∃ t i, s.act = .ok t ∧ Stands t a.content ⟨i, m.line + 1, a.indentation⟩
      ⟨o.indent, o.indents, o.kinds ++ [.scalar cs .doubleQuoted]⟩ true c := by
  obtain ⟨w, hquote, hact⟩ := h.quotedScalar (.inr rfl) hi hk
  obtain ⟨t, index, hto, hafter⟩ := hquote.toToken_line hb
  exact ⟨_, index, hact t hto,
    (hafter.setAdjacent t.mark.index).emit (.scalar cs .doubleQuoted) m trivial⟩

end Stands

section
variable {column i : Int} {indents is : List Indent} (hw : Within column indents i is) {here : Nat}
  (hhere : column < here) {a : Ahead} (hb : Begins a.content) (ha : a.column ≤ column)
  (kinds : List Kind) (keyAllowed : Bool)
include hw hhere hb ha

theorem leads_plain {cs : List Char} (h : Scalar.isPlainSafe cs = true) (hc : Collected indents) :
    Leads ⟨cs ++ '\n' :: a.text, here, ⟨i, is, kinds⟩, keyAllowed⟩
      (a.view ⟨column, indents, kinds ++ [.scalar cs .plain]⟩) := by
  refine Reaches.step ?_ fun s hs => ?_
  · simp only [Ahead.view, Ahead.text, List.length_append, List.length_cons]
    omega
  have hle := hw.indent_le
  have hcolumn : s.mark.column = here := Int.ofNat_inj.mp hs.column
  have hstands := hs.stands
  obtain ⟨k, hsave, hk⟩ := hstands.saveCandidate_within hw (by rw [hcolumn]; exact hhere)
  have hend : a.content = [] ∨ (a.indentation : Int) < column + 1 := by
    by_cases hnil : a.content = []
    · exact .inl hnil
    · rw [Ahead.column, if_neg hnil] at ha
      exact .inr (by omega)
  obtain ⟨t, index, hact, hlast⟩ :=
    hstands.plainLine h hb (by rw [hcolumn]; simp only; omega) hw hc hend hsave
  refine ⟨t, hact, hlast.rests_start rfl hb fun c hc => ⟨(hk c hc).1, ?_⟩⟩
  rw [(hk c hc).2]
  exact Nat.lt_succ_self _

theorem leads_quoted (cs : List Char) :
    Leads ⟨Scalar.Quoted.encode cs ++ '\n' :: a.text, here, ⟨i, is, kinds⟩, keyAllowed⟩
      (a.view ⟨column, indents, kinds ++ [.scalar cs .doubleQuoted]⟩) := by
  refine Reaches.step ?_ fun s hs => ?_
  · simp only [Ahead.view, Ahead.text, List.length_append, List.length_cons]
    omega
  have hle := hw.indent_le
  have hcolumn : s.mark.column = here := Int.ofNat_inj.mp hs.column
  have hstands := hs.stands
  obtain ⟨k, hsave, hk⟩ := hstands.saveCandidate_within hw (by rw [hcolumn]; exact hhere)
  have hindent : i ≤ (s.mark.column : Int) := by omega
  obtain ⟨t, index, hact, hlast⟩ := hstands.quotedLine hb hindent hsave
  refine ⟨t, hact, ?_⟩
  rw [Ahead.view, ← hw.close ha]
  refine hlast.rests_start rfl hb fun c hc => ⟨(hk c hc).1, ?_⟩
  rw [(hk c hc).2]
  exact Nat.lt_succ_self _

end

end YamlCodec.Token
