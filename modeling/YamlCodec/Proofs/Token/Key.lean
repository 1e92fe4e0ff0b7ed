import YamlCodec.Proofs.Token.Leaf

/-!
# Tokens of keys

Where a key may begin a scalar is remembered as a candidate. The colon after it, on the same line and
not too far away, puts the tokens of the key and of a new mapping before the scalar.
-/

set_option autoImplicit false

namespace YamlCodec.Token
open YamlCodec.Source YamlCodec.Lexeme

/-- A scalar where an entry begins leaves steps of indentation where the entry may still begin. -/
theorem Enters.within {column : Nat} {outer i : Int} {indents is : List Indent} {new : Bool}
    (h : Enters column outer indents i is new) :
    ∃ i' is', Within i' is' i is ∧ Collected is' ∧ Enters column outer indents i' is' new := by
  cases h with
  | first hw hc ho => exact ⟨outer, indents, hw, hc, .first .flush hc ho⟩
  | next =>
    refine ⟨column, _, .flush, ?_, .next⟩
    intro j hj
    obtain rfl := Option.some.inj hj
    rfl

namespace Scanner
variable {s : Scanner}

/-- A token that follows directly is read at once. -/
theorem next_act (ht : s.toToken = .ok s) (hd : s.dropStale = .ok s)
    (hc : s.closeBlocks s.cursor.column = s) : s.next = s.act := by
  unfold next
  simp only [ht, hd, hc, bind, Except.bind]
  rfl

end Scanner

namespace Stands
variable {s : Scanner} {rest : List Char} {m : Mark} {o : Outline} {keyAllowed : Bool}

theorem count_eq {candidate : Option Candidate} (h : Stands s rest m o keyAllowed candidate) :
    s.count = o.kinds.length := by
  rw [h.quiet.count, ← h.outline]
  simp [Scanner.outline]

theorem saveCandidate (h : Stands s rest m o true none) :
    ∃ r, s.saveCandidate = { s with candidate := some ⟨r, o.kinds.length, m⟩ } := by
  rw [← h.count_eq, ← h.mark]
  unfold Scanner.saveCandidate
  rw [if_pos h.keyAllowed]
  exact ⟨_, rfl⟩

theorem dropStale_near {k : Candidate} (h : Stands s rest m o keyAllowed (some k))
    (hl : m.line = k.mark.line) (hn : m.index ≤ k.mark.index + 1024) : s.dropStale = .ok s := by
  have hline : ¬ k.mark.line < m.line := by omega
  have hindex : ¬ k.mark.index + 1024 < m.index := by omega
  unfold Scanner.dropStale
  rw [h.candidate]
  simp only [h.mark, decide_eq_false hline, decide_eq_false hindex, Bool.or_false, Bool.and_false,
    Bool.false_eq_true, if_false]

end Stands

/-- Where an entry begins, this text before a colon is read as a scalar that may be its key. -/
def ReadsKey (text : List Char) (kind : Kind) : Prop :=
  ∀ {s : Scanner} {rest : List Char} {m : Mark} {o : Outline} {outer : Int} {indents : List Indent}
    {new : Bool}, Stands s (text ++ ':' :: rest) m o true none → gapAhead rest = true →
    Enters m.column outer indents o.indent o.indents new →
    ∃ t i is r, s.act = .ok t ∧ Enters m.column outer indents i is new ∧
      Stands t (':' :: rest) ⟨m.index + text.length, m.line, m.column + text.length⟩
        ⟨i, is, o.kinds ++ [kind]⟩ false (some ⟨r, o.kinds.length, m⟩)

theorem readsKey_plain {cs : List Char} (h : Scalar.isPlainSafe cs = true) :
    ReadsKey cs (.scalar cs .plain) := by
  intro s rest m o outer indents new hs hg he
  obtain ⟨i, is, hw, hc, henters⟩ := he.within
  obtain ⟨r, hsave⟩ := hs.saveCandidate
  have hact := hs.plainScalar h (by simp) he.indent_le hw hc (Plain.read_key h hg (i + 1)) hsave
  have hafter := (hs.advance_line (Plain.runs_of_safe h).oneLine).setIndents i is
  exact ⟨_, i, is, r, hact, henters, (hafter.forbidKey.setCandidate _).emit _ _ trivial⟩

theorem readsKey_quoted (cs : List Char) :
    ReadsKey (Scalar.Quoted.encode cs) (.scalar cs .doubleQuoted) := by
  intro s rest m o outer indents new hs hg he
  obtain ⟨r, hsave⟩ := hs.saveCandidate
  obtain ⟨w, hquote, hact⟩ := hs.quotedScalar (.inl rfl) he.indent_le hsave
  have hto := hquote.toToken ⟨by decide, by decide, by decide⟩
  exact ⟨_, o.indent, o.indents, r, hact w hto, he, (hquote.setAdjacent _).emit _ _ trivial⟩

namespace Stands
variable {s : Scanner} {rest : List Char} {m : Mark} {o : Outline} {keyAllowed : Bool}
  {outer : Int} {indents : List Indent} {new : Bool}

theorem valueAfter {k : Candidate} (h : Stands s (':' :: rest) m o keyAllowed (some k))
    (hp : k.position < o.kinds.length)
    (he : Enters k.mark.column outer indents o.indent o.indents new)
    (hr : ∀ c ∈ rest.head?, c ≠ '\t') :
    ∃ t i is, s.value = .ok t ∧ Within k.mark.column (⟨outer, true⟩ :: indents) i is ∧
      Stands t rest ⟨m.index + 1, m.line, m.column + 1⟩
        ⟨i, is, o.kinds.take k.position ++ starting new .blockMappingStart ++
          ([.key] ++ o.kinds.drop k.position) ++ [.value]⟩ false none := by
  have hafter := h.advance (by decide)
  have hkey := hafter.insert hp .key k.mark
  have hopen := hkey.openBlockAt (p := k.position) (by simp; omega) .blockMappingStart k.mark he
  have hlen : (o.kinds.take k.position).length = k.position := by
    rw [List.length_take]
    omega
  rw [List.take_left' hlen, List.drop_left' hlen] at hopen
  obtain ⟨i, is, hone, hwithin⟩ := hopen.indentOne .flush
  have hpair : s.beginsPair = false := by
    unfold Scanner.beginsPair
    rw [h.quiet.flows]
  have htab : ((s.advance 1).rest.head? == some '\t') = false := by
    rw [hafter.rest, beq_eq_false_iff_ne]
    intro heq
    exact hr '\t' heq rfl
  have hact : s.value = .ok (Scanner.emit
      { (((s.advance 1).insert k.position .key k.mark).openBlock k.mark.column (some k.position)
        .blockMappingStart k.mark).indentOne.forbidKey with candidate := none } .value m) := by
    unfold Scanner.value
    simp only [hpair, Bool.false_eq_true, if_false, htab, Bool.false_and, bind, Except.bind,
      hafter.candidate, Scanner.keyBefore, h.mark]
    rfl
  exact ⟨_, i, is, hact, hwithin, (hone.forbidKey.setCandidate none).emit .value m trivial⟩

/-- A key is read with its colon. -/
theorem implicitKey {text : List Char} {kind : Kind} (hk : ReadsKey text kind) (hlen : text.length ≤ 1024)
    (h : Stands s (text ++ ':' :: rest) m o true none) (hg : gapAhead rest = true)
    (hr : ∀ c ∈ rest.head?, c ≠ '\t')
    (he : Enters m.column outer indents o.indent o.indents new) :
    ∃ s₁ t i is, s.act = .ok s₁ ∧ s₁.finished = false ∧ s₁.dropStale = .ok s₁ ∧ s₁.next = .ok t ∧
      Within m.column (⟨outer, true⟩ :: indents) i is ∧
      Stands t rest ⟨m.index + text.length + 1, m.line, m.column + text.length + 1⟩
        ⟨i, is, o.kinds ++ starting new .blockMappingStart ++ [.key, kind, .value]⟩ false none := by
  obtain ⟨s₁, i₁, is₁, r, hact, he₁, hs₁⟩ := hk h hg he
  obtain ⟨t, i, is, hvalue, hw, ht⟩ := hs₁.valueAfter (by simp) he₁ hr
  have hstale := hs₁.dropStale_near rfl (by simp only; omega)
  have hle := he₁.indent_le
  have hcolumn₁ : s₁.cursor.column = m.column + text.length := congrArg Mark.column hs₁.mark
  have hindent : i₁ ≤ ((m.column + text.length : Nat) : Int) := by omega
  have hclose := hs₁.closeBlocks hindent
  have hnext : s₁.next = .ok t := by
    rw [Scanner.next_act (hs₁.toToken ⟨by decide, by decide, by decide⟩) hstale
        (by rw [hcolumn₁]; exact hclose),
      hs₁.act_token (by decide) (not_mark (by decide) (by decide) _) hindent, ← hvalue]
    unfold Scanner.token
    simp [hg]
  have hkinds : o.kinds ++ starting new .blockMappingStart ++ ([.key] ++ [kind]) ++ [.value] =
      o.kinds ++ starting new .blockMappingStart ++ [.key, kind, .value] := by simp
  rw [List.take_left, List.drop_left, hkinds] at ht
  exact ⟨s₁, t, i, is, hact, hs₁.quiet.unfinished, hstale, hnext, hw, ht⟩

end Stands

section
variable {column : Nat} {outer : Int} {indents : List Indent} {i : Int} {is : List Indent}
  {new : Bool} {rest : List Char} {kinds : List Kind} {P : Scanner → Prop} {left : Nat}

/-- What follows the gap after a key leads on. -/
theorem reaches_key {text : List Char} {kind : Kind} (hk : ReadsKey text kind) (hne : text ≠ [])
    (hlen : text.length ≤ 1024) (he : Enters column outer indents i is new)
    (hg : gapAhead rest = true)
    (h : ∀ i' is', Within column (⟨outer, true⟩ :: indents) i' is' →
      ∃ v, Follows (column + text.length + 1)
          ⟨i', is', kinds ++ starting new .blockMappingStart ++ [.key, kind, .value]⟩ false rest v ∧
        Reaches v P left) :
    Reaches ⟨text ++ ':' :: rest, column, ⟨i, is, kinds⟩, true⟩ P left := by
  refine Reaches.step_two_trans (by simp) fun s hs => ?_
  have hcolumn : s.mark.column = column := Int.ofNat_inj.mp hs.column
  rw [← hcolumn] at he h
  -- what follows does not depend on the step of indentation that the colon leaves
  obtain ⟨_, hfollows, _⟩ := h _ _ .flush
  obtain ⟨s₁, t, i', is', hact, hfinished, hstale, hnext, hw, ht⟩ :=
    Stands.implicitKey hk hlen hs.stands hg (fun c hc => (hfollows.begins c hc).1) he
  obtain ⟨v, hv, hlead⟩ := h i' is' hw
  refine ⟨s₁, t, v, hact, hfinished, hstale, hnext, ht.rests hv, ?_, hlead⟩
  have := hv.length_le
  have := List.length_pos_iff.mpr hne
  simp only [List.length_append, List.length_cons]
  omega

end
end YamlCodec.Token
