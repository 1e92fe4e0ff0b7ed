import YamlCodec.Proofs.Token.Kept
import YamlCodec.Proofs.Token.Node

/-!
# Where one root ends and the next begins

Behind a root comes the text of others, with nothing in between. A root in quotes or brackets has its
tokens given out whatever follows. A block collection is still open there: its tokens stay, and what
follows either goes on with it or does not fit.
-/

set_option autoImplicit false

namespace YamlCodec.Token
open YamlCodec.Source YamlCodec.Lexeme YamlCodec.Writer

/-- These are the kinds of the first tokens that a stream has. -/
def GivesOut (kinds : List Kind) (ts : Stream) : Prop := kinds <+: ts.tokens.map Token.kind

theorem Keeps.givesOut {base : List Token} {s : Scanner} (h : Keeps base s) (fuel : Nat) :
    GivesOut (base.map Token.kind) (Token.run fuel s) :=
  (h.run fuel).map Token.kind

section
variable {s : Scanner}

/-- Where no candidate is pending all tokens so far stay. -/
theorem keeps_all (hn : s.count = s.tokens.length) (hc : s.candidate = none) (hf : s.flows = []) :
    Keeps s.tokens.reverse s :=
  ⟨List.prefix_refl _, hn, by simp [hc], by simp [hf]⟩

/-- A candidate that is left behind on an earlier line holds nothing back. -/
theorem givesOut_past {kinds : List Kind} (hkinds : s.tokens.reverse.map Token.kind = kinds)
    (hn : s.count = s.tokens.length) (hf : s.flows = [])
    (hk : ∀ k ∈ s.candidate, k.required = false ∧ k.mark.line < s.mark.line) (fuel : Nat) :
    GivesOut kinds (run (fuel + 1) s) := by
  have hflow : s.inFlow = false := by rw [Scanner.inFlow, hf]; rfl
  have hkeeps : Keeps s.tokens.reverse { s with candidate := none } :=
    keeps_all (s := { s with candidate := none }) hn rfl hf
  rw [← hkinds]
  refine List.IsPrefix.map Token.kind ?_
  rw [run, dropStale_past hflow hk]
  split
  · exact List.prefix_refl _
  · dsimp only
    split
    · exact hkeeps.released
    · rename_i t ht
      exact (hkeeps.next t ht).run fuel

namespace Stands
variable {rest : List Char} {m : Mark} {o : Outline} {keyAllowed : Bool}
  {candidate : Option Candidate}

theorem kinds_eq (h : Stands s rest m o keyAllowed candidate) :
    s.tokens.reverse.map Token.kind = o.kinds :=
  congrArg Outline.kinds h.outline

theorem keeps (h : Stands s rest m o keyAllowed none) : Keeps s.tokens.reverse s :=
  keeps_all h.quiet.count h.candidate h.quiet.flows

theorem givesOut (h : Stands s rest m o keyAllowed none) (fuel : Nat) :
    GivesOut o.kinds (run fuel s) :=
  h.kinds_eq ▸ h.keeps.givesOut fuel

/-- What is read at a token leaves those before it. -/
theorem givesOut_act (h : Stands s rest m o keyAllowed none) {t : Scanner} (hact : s.act = .ok t)
    (fuel : Nat) : GivesOut o.kinds (run fuel t) :=
  h.kinds_eq ▸ (h.keeps.act t hact).givesOut fuel

/-- A candidate holds back the tokens from its place on. -/
theorem released_kinds {k : Candidate} (h : Stands s rest m o keyAllowed (some k)) :
    s.released.map Token.kind = o.kinds.take k.position := by
  rw [← h.kinds_eq, Scanner.released, List.map_take, Scanner.settled, h.candidate, h.quiet.flows]
  rfl

theorem dropStale_required {p : Nat} {m' : Mark}
    (h : Stands s rest m o keyAllowed (some ⟨true, p, m'⟩)) (hl : m'.line < m.line) :
    s.dropStale = .error ⟨.keyExpected, m⟩ := by
  unfold Scanner.dropStale Scanner.dropCandidate
  rw [h.candidate]
  simp [h.quiet.inFlow, h.mark, hl, Scanner.fail]

section
variable {ks ls : List Kind} (hk : o.kinds = ks ++ ls) {m' : Mark}
include hk

/-- What had to be a key and is left behind on an earlier line stops the scan, nothing of it being
given out. -/
theorem stops (h : Stands s rest m o keyAllowed (some ⟨true, ks.length, m'⟩))
    (hl : m'.line < m.line) :
    ∃ f, ∀ fuel, (run (fuel + 1) s).failure = some f ∧
      (run (fuel + 1) s).tokens.map Token.kind = ks := by
  refine ⟨⟨.keyExpected, m⟩, fun fuel => ?_⟩
  rw [run, h.quiet.unfinished, if_neg (by decide), h.dropStale_required hl]
  exact ⟨rfl, by rw [h.released_kinds, hk, List.take_left]⟩

/-- The same at the end of its line. -/
theorem stops_next {a : Ahead}
    (h : Stands s ('\n' :: a.text) m o keyAllowed (some ⟨true, ks.length, m'⟩))
    (hb : Begins a.content) (hl : m.line = m'.line) (hn : m.index ≤ m'.index + 1024) :
    ∃ f, ∀ fuel, (run (fuel + 1) s).failure = some f ∧
      (run (fuel + 1) s).tokens.map Token.kind = ks := by
  obtain ⟨t, i, hto, ht⟩ := h.toToken_line hb
  have hstale := ht.dropStale_required (Nat.lt_succ_of_le (Nat.le_of_eq hl.symm))
  have hnext : s.next = .error ⟨.keyExpected, ⟨i, m.line + 1, a.indentation⟩⟩ := by
    unfold Scanner.next
    simp only [hto, hstale, bind, Except.bind]
  refine ⟨⟨.keyExpected, ⟨i, m.line + 1, a.indentation⟩⟩, fun fuel => ?_⟩
  have hrun : run (fuel + 1) s =
      ⟨s.released, some ⟨.keyExpected, ⟨i, m.line + 1, a.indentation⟩⟩⟩ := by
    rw [run, h.quiet.unfinished, if_neg (by decide), h.dropStale_near hl hn]
    simp only [hnext]
  rw [hrun]
  exact ⟨rfl, by rw [h.released_kinds, hk, List.take_left]⟩

end

end Stands
end

/-- The tokens so far are of these kinds and stay, and what is left is the end of a text. -/
structure Past (ks : List Kind) (after : List Char) (s : Scanner) : Prop where
  kinds : s.tokens.reverse.map Token.kind = ks
  rest : s.rest <:+ after
  stays : ∀ fuel, GivesOut ks (run (fuel + 1) s)

/-- At the start of a root, outside of all blocks. -/
def outermost (content : List Char) (kinds : List Kind) : View :=
  ⟨content, (0 : Nat), ⟨-1, [], kinds⟩, true⟩

/-- At the start of a line in a block collection of the first column. -/
def within (content : List Char) (kinds : List Kind) : View :=
  ⟨content, (0 : Nat), ⟨0, [⟨-1, true⟩], kinds⟩, true⟩

section
variable {s : Scanner} {kinds : List Kind} {content : List Char}

theorem Ready.outermost_save (h : Ready s (outermost content kinds)) :
    s.mark.column = 0 ∧ ∃ c, s.saveCandidate = { s with candidate := c } ∧
      ∀ k ∈ c, k.required = false ∧ k.mark = s.mark := by
  have hcolumn : s.mark.column = 0 := Int.ofNat_inj.mp h.column
  have hw : Within (-1) [] (-1) [] := .flush
  exact ⟨hcolumn, h.stands.saveCandidate_within hw (by omega)⟩

/-- In a block collection whatever begins at its column has to be an entry. -/
theorem Ready.within_save (h : Ready s (within content kinds)) :
    s.mark.column = 0 ∧
      s.saveCandidate = { s with candidate := some ⟨true, kinds.length, s.mark⟩ } := by
  have hcolumn : s.mark.column = 0 := Int.ofNat_inj.mp h.column
  obtain ⟨hindent, hindents, _⟩ := h.outline_eq
  have hcount : s.count = kinds.length := h.stands.count_eq
  have hkey : s.keyAllowed = true := h.keyAllowed
  have hat : s.atCollection = true := by rw [Scanner.atCollection, hindents]
  have hhere : s.cursor.column = 0 := hcolumn
  refine ⟨hcolumn, ?_⟩
  rw [Scanner.saveCandidate, if_pos hkey, hat, hindent, hhere, hcount, h.quiet.inFlow]
  rfl

end

/-! ## What is read first -/

/-- A plain scalar is read as far as it goes on. It stays once it has left its line, and what is left
lies behind that line. -/
theorem Ready.plain {s : Scanner} {column i here : Int} {indents is : List Indent} {kinds : List Kind}
    {keyAllowed : Bool} {cs after : List Char}
    (h : Ready s ⟨cs ++ '\n' :: after, here, ⟨i, is, kinds⟩, keyAllowed⟩)
    (hsafe : Scalar.isPlainSafe cs = true) (hw : Within column indents i is) (hc : Collected indents)
    (hhere : column < here) {r : Plain.Result}
    (hr : Plain.read false (column + 1) [] Plain.Gap.none 0 (cs ++ '\n' :: after) = .ok r) :
    ∃ t, s.act = .ok t ∧
      (cs.length < r.length → Past (kinds ++ [.scalar r.text.reverse .plain]) after t) := by
  have hle := hw.indent_le
  have hcolumn : (s.mark.column : Int) = here := h.column
  have hs : Stands s (cs ++ '\n' :: after) s.mark ⟨i, is, kinds⟩ keyAllowed none := h.stands
  obtain ⟨c, hsave, hk⟩ := hs.saveCandidate_within hw (by rw [hcolumn]; exact hhere)
  have hact := hs.plainReads hsafe (by simp) (by rw [hcolumn]; simp only; omega) hw hc hr hsave
  have hkinds : (⟨.scalar r.text.reverse .plain, s.mark⟩ :: s.tokens : List Token).reverse.map
      Token.kind = kinds ++ [.scalar r.text.reverse .plain] := by
    simp only [List.reverse_cons, List.map_append, hs.kinds_eq, List.map_cons, List.map_nil]
  refine ⟨_, hact, fun hlong => ⟨hkinds, ?_, givesOut_past hkinds (congrArg Nat.succ hs.quiet.count)
    hs.quiet.flows fun k hmem => ⟨(hk k hmem).1, ?_⟩⟩⟩
  · have hrest := Cursor.rest_suffix_advance hlong after s.mark s.cursor.fresh
    rwa [← hs.cursor_eq] at hrest
  · have hline := Cursor.line_lt_advance (Plain.runs_of_safe hsafe).oneLine hlong after s.mark
      s.cursor.fresh
    rw [← hs.cursor_eq] at hline
    rw [(hk k hmem).2]
    exact hline

section
variable (o : WriterOptions) {s : Scanner} {column : Nat} {outer i : Int} {indents is : List Indent}
  {new : Bool} {kinds : List Kind} {rest : List Char}

/-- Where an entry may begin a sequence is begun or goes on with its first dash. -/
theorem Ready.sequence {n : Node} {items : List Node}
    (h : Ready s ⟨(Node.sequence (n :: items)).body o column ++ rest, column, ⟨i, is, kinds⟩, true⟩)
    (he : Enters column outer indents i is new) :
    ∃ t, s.act = .ok t ∧
      ∀ fuel, GivesOut (kinds ++ starting new .blockSequenceStart ++ [.blockEntry]) (run fuel t) := by
  have hcolumn : s.mark.column = column := Int.ofNat_inj.mp h.column
  rw [← hcolumn] at he
  have hbody : (Node.sequence (n :: items)).body o column ++ rest =
      '-' :: ' ' :: (n.body o (column + 2) ++ (Node.itemBodies o column items ++ rest)) := by
    simp [Node.body, gap_inline]
  have hs := h.stands
  rw [hbody] at hs
  obtain ⟨t, _, _, hentry, _, ht⟩ := hs.blockEntry he (body_head n (column + 2) _)
  have hact := hs.act_token (by decide) (not_mark_of_ne (by decide) _) he.indent_le
  exact ⟨t, hact.trans hentry, fun fuel => ht.givesOut fuel⟩

/-- A mapping is begun or goes on with the mark of its first key. -/
theorem Ready.mapping {k : Key} {n : Node} {entries : List (Key × Node)}
    (h : Ready s ⟨(Node.mapping ((k, n) :: entries)).body o column ++ rest, column, ⟨i, is, kinds⟩,
      true⟩) (he : Enters column outer indents i is new) :
    ∃ t, s.act = .ok t ∧
      ∀ fuel, GivesOut (kinds ++ starting new .blockMappingStart ++ [.key]) (run (fuel + 1) t) := by
  have hcolumn : s.mark.column = column := Int.ofNat_inj.mp h.column
  rw [← hcolumn] at he
  have hbody : (Node.mapping ((k, n) :: entries)).body o column ++ rest =
      keyText column k ++ (n.gap .newline (column + max 1 o.indentStep) ++
        (n.body o (column + max 1 o.indentStep) ++ (Node.entryBodies o column entries ++ rest))) := by
    simp [Node.body]
  obtain ⟨hgap, htab⟩ := gap_newline n (column + max 1 o.indentStep)
    (n.body o (column + max 1 o.indentStep) ++ (Node.entryBodies o column entries ++ rest))
  have hs := h.stands
  rw [hbody] at hs
  generalize n.gap .newline (column + max 1 o.indentStep) ++
    (n.body o (column + max 1 o.indentStep) ++ (Node.entryBodies o column entries ++ rest)) = after
    at hs hgap htab
  by_cases hlong : maxImplicitKey < (render k.1 k.2).length
  · have htext : keyText column k ++ after =
        '?' :: ' ' :: (render k.1 k.2 ++ '\n' :: (blanks column ++ ':' :: after)) := by
      simp [keyText, if_pos hlong]
    rw [htext] at hs
    have hbegins : Begins (render k.1 k.2 ++ '\n' :: (blanks column ++ ':' :: after)) :=
      render_begins k.1 k.2 (by simp)
    obtain ⟨t, hkey, ht⟩ := hs.explicitKey he (Begins.starts hbegins)
    have hact := hs.act_token (by decide) (not_mark_of_ne (by decide) _) he.indent_le
    exact ⟨t, hact.trans hkey, fun fuel => ht.givesOut (fuel + 1)⟩
  · have htext : keyText column k ++ after = render k.1 k.2 ++ ':' :: after := by
      simp [keyText, if_neg hlong]
    rw [htext] at hs
    obtain ⟨s₁, t, _, _, hact, hfinished, hstale, hnext, _, ht⟩ :=
      Stands.implicitKey (readsKey_render k.1 k.2) (Nat.le_of_not_lt hlong) hs hgap htab he
    refine ⟨s₁, hact, fun fuel => ?_⟩
    rw [run_next hfinished hstale hnext]
    exact .trans (List.prefix_append_right_inj _ |>.mpr ⟨_, rfl⟩) (ht.givesOut fuel)

end

end YamlCodec.Token
