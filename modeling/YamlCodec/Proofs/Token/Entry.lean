import YamlCodec.Proofs.Token.Leaf

/-!
# Tokens that begin an entry

A dash, the mark of an explicit key, and a colon open a block collection where none is open at their
column. After them comes a node on the same line, on the next one, or none at all.
-/

set_option autoImplicit false

namespace YamlCodec.Token
open YamlCodec.Source YamlCodec.Lexeme

namespace Stands
variable {s : Scanner} {rest : List Char} {m : Mark} {o : Outline} {outer : Int}
  {indents : List Indent} {new : Bool}

theorem blockEntry (h : Stands s ('-' :: ' ' :: rest) m o true none)
    (he : Enters m.column outer indents o.indent o.indents new)
    (hr : ∀ c ∈ rest.head?, isBlank c = false ∧ c ≠ '#') :
    ∃ t i is, s.blockEntry = .ok t ∧ Within m.column (⟨outer, true⟩ :: indents) i is ∧
      Stands t rest ⟨m.index + 2, m.line, m.column + 2⟩
        ⟨i, is, o.kinds ++ starting new .blockSequenceStart ++ [.blockEntry]⟩ true none := by
  have hopen := (h.advance (by decide)).openBlock .blockSequenceStart m trivial he
  have htrail := hopen.trail_space hr
  have hafter := hopen.advance (by decide)
  generalize hw : (((s.advance 1).openBlock m.column none .blockSequenceStart m).advance 1) = w at *
  have hstep : ∃ i is,
      Stands (if decide (0 < breakLength w.rest) || flowAhead w.rest then w.indentOne else w) rest
        ⟨m.index + 1 + 1, m.line, m.column + 1 + 1⟩
        ⟨i, is, o.kinds ++ starting new .blockSequenceStart⟩ true none ∧
      Within m.column (⟨outer, true⟩ :: indents) i is := by
    split
    · exact hafter.indentOne .flush
    · exact ⟨_, _, hafter, .flush⟩
  obtain ⟨i, is, hone, hwithin⟩ := hstep
  generalize ht :
    (if decide (0 < breakLength w.rest) || flowAhead w.rest then w.indentOne else w) = t at hone
  have hact : s.blockEntry = .ok (t.allowKey.emit .blockEntry t.mark) := by
    unfold Scanner.blockEntry
    simp only [h.quiet.inFlow, h.keyAllowed, h.quiet.property, Bool.and_false, Bool.false_and,
      Bool.not_true, Bool.false_eq_true, if_false, h.mark, htrail, bind, Except.bind, ht,
      hone.dropCandidate]
    rfl
  refine ⟨_, i, is, hact, hwithin, ?_⟩
  exact hone.allowKey.emit .blockEntry _ trivial

theorem explicitKey (h : Stands s ('?' :: ' ' :: rest) m o true none)
    (he : Enters m.column outer indents o.indent o.indents new)
    (hr : ∀ c ∈ rest.head?, isBlank c = false ∧ isBreak c = false ∧ c ≠ '#') :
    ∃ t, s.explicitKey = .ok t ∧
      Stands t rest ⟨m.index + 2, m.line, m.column + 2⟩
        ⟨m.column, ⟨outer, true⟩ :: indents,
          o.kinds ++ starting new .blockMappingStart ++ [.key]⟩ true none := by
  have hopen := h.openBlock .blockMappingStart m trivial he
  have hafter := (hopen.allowKey.advance (by decide)).advance (by decide)
  have hkey : afterKey 0 false false (' ' :: rest) = ⟨1, false, false⟩ := by
    rw [afterKey, if_neg (by decide), if_neg (by decide), if_pos (by decide)]
    cases rest with
    | nil => rfl
    | cons c cs =>
      obtain ⟨hblank, hbreak, hhash⟩ := hr c rfl
      simp only [isBlank, Bool.or_eq_false_iff, beq_eq_false_iff_ne] at hblank
      simp [afterKey, hblank, hbreak, hhash]
  have hrest := (hopen.allowKey.advance (by decide)).rest
  generalize hw : s.openBlock m.column none .blockMappingStart m = w at *
  have hact : s.explicitKey = .ok (((w.allowKey.advance 1).advance 1).emit .key m) := by
    unfold Scanner.explicitKey
    simp only [h.quiet.inFlow, h.keyAllowed, Bool.not_true, Bool.and_false, Bool.false_eq_true,
      if_false, h.mark, hw, hopen.quiet.inFlow, Bool.or_false, hopen.dropCandidate, hrest, hkey,
      bind, Except.bind]
    rfl
  refine ⟨_, hact, ?_⟩
  exact hafter.emit .key m trivial

theorem valueAlone (h : Stands s (':' :: rest) m o true none)
    (he : Enters m.column outer indents o.indent o.indents new)
    (hr : ∀ c ∈ rest.head?, c ≠ '\t') :
    ∃ t i is, s.value = .ok t ∧ Within m.column (⟨outer, true⟩ :: indents) i is ∧
      Stands t rest ⟨m.index + 1, m.line, m.column + 1⟩
        ⟨i, is, o.kinds ++ starting new .blockMappingStart ++ [.value]⟩ true none := by
  have hafter := h.advance (by decide)
  obtain ⟨i, is, hone, hwithin⟩ :=
    (hafter.openBlock .blockMappingStart m trivial he).indentOne .flush
  have hpair : s.beginsPair = false := by
    unfold Scanner.beginsPair
    rw [h.quiet.flows]
  have htab : ((s.advance 1).rest.head? == some '\t') = false := by
    rw [hafter.rest, beq_eq_false_iff_ne]
    intro heq
    exact hr '\t' heq rfl
  have hact : s.value = .ok (((s.advance 1).openBlock m.column none .blockMappingStart
      m).indentOne.allowKey.emit .value m) := by
    unfold Scanner.value
    simp only [hpair, Bool.false_eq_true, if_false, htab, Bool.false_and, bind, Except.bind,
      hafter.candidate, Scanner.valueAlone, hafter.quiet.inFlow, hafter.keyAllowed, Bool.not_true,
      h.mark]
    rfl
  refine ⟨_, i, is, hact, hwithin, ?_⟩
  exact hone.allowKey.emit .value m trivial

end Stands

section
variable {column : Nat} {outer : Int} {indents : List Indent} {i : Int} {is : List Indent}
  {new : Bool} {rest : List Char} {kinds : List Kind} {P : Scanner → Prop} {left : Nat}

/-- The token of an entry is read, and what follows the gap after it leads on. -/
theorem reaches_mark {c : Char} (hc : c ≠ '%') (hm : documentMarkAhead (c :: rest) = false)
    (he : Enters column outer indents i is new) {after : List Char}
    (ha : after.length ≤ rest.length)
    (h : ∀ s m, Stands s (c :: rest) m ⟨i, is, kinds⟩ true none → m.column = column →
      ∃ t m' o k v, s.token c rest = .ok t ∧ Stands t after m' o k none ∧
        Follows m'.column o k after v ∧ Reaches v P left) :
    Reaches ⟨c :: rest, column, ⟨i, is, kinds⟩, true⟩ P left := by
  refine Reaches.step_trans (List.cons_ne_nil _ _) fun s hs => ?_
  have hcolumn : s.mark.column = column := Int.ofNat_inj.mp hs.column
  obtain ⟨t, m', o, k, v, htoken, ht, hv, hlead⟩ := h s s.mark hs.stands hcolumn
  have hact : s.act = s.token c rest := by
    refine hs.stands.act_token hc hm ?_
    rw [hcolumn]
    exact he.indent_le
  refine ⟨t, v, hact.trans htoken, ht.rests hv, ?_, hlead⟩
  have := hv.length_le
  simp only [List.length_cons]
  omega

theorem reaches_dash (he : Enters column outer indents i is new)
    (hr : ∀ c ∈ rest.head?, isBlank c = false ∧ c ≠ '#')
    (h : ∀ i' is', Within column (⟨outer, true⟩ :: indents) i' is' →
      ∃ v, Follows (column + 2)
          ⟨i', is', kinds ++ starting new .blockSequenceStart ++ [.blockEntry]⟩ true rest v ∧
        Reaches v P left) :
    Reaches ⟨'-' :: ' ' :: rest, column, ⟨i, is, kinds⟩, true⟩ P left := by
  refine reaches_mark (by decide) (not_mark_of_ne (by decide) _) he (Nat.le_succ _)
    fun s m hs hm => ?_
  rw [← hm] at he h
  obtain ⟨t, i', is', hact, hw, ht⟩ := hs.blockEntry he hr
  obtain ⟨v, hv, hlead⟩ := h i' is' hw
  exact ⟨t, _, _, _, v, hact, ht, hv, hlead⟩

theorem reaches_explicit (he : Enters column outer indents i is new) (hb : Begins rest)
    (hne : rest ≠ [])
    (h : Reaches ⟨rest, (column + 2 : Nat), ⟨column, ⟨outer, true⟩ :: indents,
      kinds ++ starting new .blockMappingStart ++ [.key]⟩, true⟩ P left) :
    Reaches ⟨'?' :: ' ' :: rest, column, ⟨i, is, kinds⟩, true⟩ P left := by
  refine reaches_mark (by decide) (not_mark_of_ne (by decide) _) he (Nat.le_succ _)
    fun s m hs hm => ?_
  rw [← hm] at he h
  obtain ⟨t, hact, ht⟩ := hs.explicitKey he hb.starts
  have hfollows : Follows (m.column + 2)
      ⟨m.column, ⟨outer, true⟩ :: indents, kinds ++ starting new .blockMappingStart ++ [.key]⟩ true
      rest _ := Follows.inline 0 hb hne
  rw [Outline.close_self _ (by exact Int.ofNat_le.mpr (Nat.le_add_right _ _))] at hfollows
  exact ⟨t, _, _, _, _, hact, ht, hfollows, h⟩

theorem reaches_colon (he : Enters column outer indents i is new) (hg : gapAhead rest = true)
    (h : ∀ i' is', Within column (⟨outer, true⟩ :: indents) i' is' →
      ∃ v, Follows (column + 1)
          ⟨i', is', kinds ++ starting new .blockMappingStart ++ [.value]⟩ true rest v ∧
        Reaches v P left) :
    Reaches ⟨':' :: rest, column, ⟨i, is, kinds⟩, true⟩ P left := by
  refine reaches_mark (by decide) (not_mark (by decide) (by decide) _) he (Nat.le_refl _)
    fun s m hs hm => ?_
  rw [← hm] at he h
  obtain ⟨_, hfollows, _⟩ := h _ _ .flush
  have hr : ∀ c ∈ rest.head?, c ≠ '\t' := fun c hc => (hfollows.begins c hc).1
  obtain ⟨t, i', is', hact, hw, ht⟩ := hs.valueAlone he hr
  obtain ⟨v, hv, hlead⟩ := h i' is' hw
  have htoken : s.token ':' rest = s.value := by
    unfold Scanner.token
    simp [hg]
  exact ⟨t, _, _, _, v, htoken.trans hact, ht, hv, hlead⟩

end
end YamlCodec.Token
