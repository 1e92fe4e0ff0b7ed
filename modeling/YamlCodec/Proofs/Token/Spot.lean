import YamlCodec.Proofs.Token.Seam
import YamlCodec.Proofs.Token.Scan
import YamlCodec.Proofs.Writer.Spot

/-!
# Scanning up to a scalar

A scanner reads the text before a place as the tokens of the collections that are open there. A safe
text is read as one token there, and what is left lies behind it. The proof goes from the root inwards:
what leads on behind the innermost collection leads on from the start.
-/

set_option autoImplicit false

namespace YamlCodec.Writer
open YamlCodec.Lexeme

/-- The tokens of a collection up to where its next entry begins. -/
def Node.openTokens (braces : Bool) : Node → List Token.Kind
  | scalar _ _ => []
  | sequence items => .blockSequenceStart :: itemTokens braces items
  | mapping entries => .blockMappingStart :: entryTokens braces entries

namespace Level

def tokens (braces : Bool) : Level → List Token.Kind
  | items before => (Node.sequence before).openTokens braces ++ [.blockEntry]
  | entry before key =>
    (Node.mapping before).openTokens braces ++ [.key, scalarKind key.1 key.2, .value]

/-- The steps of indentation of these collections. -/
def indents (o : WriterOptions) : List Level → List Token.Indent
  | [] => []
  | _ :: ls => ⟨margin o ls, true⟩ :: indents o ls

end Level

namespace Spot

/-- The tokens up to the scalar. -/
def tokens (braces : Bool) : Spot → List Token.Kind
  | node ls => ls.reverse.flatMap (Level.tokens braces)
  | key ls before _ =>
    ls.reverse.flatMap (Level.tokens braces) ++ ((Node.mapping before).openTokens braces ++ [.key])

/-- The tokens that are read together with the scalar. -/
def closing : Spot → List Token.Kind
  | key _ _ false => [.value]
  | _ => []

/-- What may follow a scalar of some length: the end of the line and lines that begin at the column of
the entry or further out, or with a comment or a document mark; behind a short key the colon and a
gap. -/
inductive Allows (o : WriterOptions) (length : Nat) : Spot → List Char → Prop where
  | node {ls : List Level} {after : List Char}
      (h : Plain.outside (Level.margin o ls) false 0 after = true) :
      Allows o length (node ls) ('\n' :: after)
  | marked {ls : List Level} {before : List (Key × Node)} {after : List Char}
      (h : Plain.outside (Level.column o ls) false 0 after = true) :
      Allows o length (key ls before true) ('\n' :: after)
  | unmarked {ls : List Level} {before : List (Key × Node)} {after : List Char}
      (hl : length ≤ maxImplicitKey) (hg : Source.gapAhead after = true)
      (ht : after.head? ≠ some '\t') : Allows o length (key ls before false) (':' :: after)

section
variable {o : WriterOptions} {length : Nat} {p : Spot} {follow : List Char}

/-- What is allowed may be cut. -/
theorem Allows.cut (h : p.Allows o length follow) :
    p.Allows o length (follow.takeWhile fun c => c != '\x00') := by
  have hp : ('-' != '\x00') = true ∧ ('.' != '\x00') = true := ⟨by decide, by decide⟩
  cases h with
  | node h => exact .node (Plain.outside_takeWhile hp h)
  | marked h => exact .marked (Plain.outside_takeWhile hp h)
  | @unmarked _ _ after hl hg ht =>
    refine .unmarked hl (Source.gapAhead_takeWhile _ hg) ?_
    cases after with
    | nil => simp
    | cons c cs =>
      rw [List.takeWhile_cons]
      split
      · exact ht
      · simp

/-- What the writer puts behind the scalar is allowed there. -/
theorem Suits.allows (h : p.Suits length) : p.Allows o length (p.trail o) := by
  cases p with
  | node ls => exact .node rfl
  | key ls before marked =>
    cases marked with
    | true =>
      have hcolon : Begins [':'] := ⟨by decide, by decide, by decide⟩
      exact .marked (Plain.outside_line hcolon (by simp))
    | false =>
      have hl : ¬ maxImplicitKey < length := of_decide_eq_false (Eq.symm h)
      exact .unmarked (Nat.le_of_not_lt hl) rfl (by simp)

end

theorem begun_not_null (o : WriterOptions) (l : Lead) (c : Nat) (n : Node) :
    '\x00' ∉ n.begun o l c := by
  cases hleaf : n.isLeaf <;> cases l <;>
    simp [Node.begun, Node.opened, hleaf, entryStart, Writer.written, Chunk.toList, newline, space,
      Node.body_not_null]

theorem levels_not_null (o : WriterOptions) (ls : List Level) : '\x00' ∉ Level.text o ls := by
  match ls with
  | [] => exact List.not_mem_nil
  | .items before :: ls => simp [Level.text, begun_not_null, levels_not_null o ls]
  | .entry before k :: ls =>
    simp [Level.text, begun_not_null, keyText_not_null, levels_not_null o ls]

theorem text_not_null (o : WriterOptions) (p : Spot) : '\x00' ∉ p.text o := by
  cases p with
  | node ls =>
    cases hl : Level.lead ls <;> simp [text, hl, levels_not_null]
  | key ls before marked => cases marked <;> simp [text, levels_not_null, begun_not_null]

end Spot
end YamlCodec.Writer

namespace YamlCodec.Token
open YamlCodec.Source YamlCodec.Lexeme YamlCodec.Writer

section
variable {column i : Int} {indents is : List Indent} {here : Nat} {kinds : List Kind}
  {keyAllowed : Bool} {cs after : List Char}

/-- A safe text is read as one scalar where nothing after its line goes on with it. -/
theorem reaches_plain (h : Scalar.isPlainSafe cs = true) (ha : Plain.outside column false 0 after = true)
    (hw : Within column indents i is) (hc : Collected indents) (hhere : column < here) :
    Reaches ⟨cs ++ '\n' :: after, here, ⟨i, is, kinds⟩, keyAllowed⟩
      (Past (kinds ++ [.scalar cs .plain]) after) 0 := by
  refine Reaches.step (by simp only [List.length_append, List.length_cons]; omega) fun s hs => ?_
  obtain ⟨n, hn, hread⟩ := Plain.read_inside h ha
  obtain ⟨t, hact, ht⟩ := hs.plain h hw hc (by omega) hread
  have hpast := ht hn
  rw [List.reverse_reverse] at hpast
  exact ⟨t, hact, hpast⟩

/-- A short safe text before a colon is read as a key. -/
theorem reaches_plainKey {column : Nat} {outer : Int} {new : Bool} (h : Scalar.isPlainSafe cs = true)
    (hl : cs.length ≤ maxImplicitKey) (hg : gapAhead after = true) (ht : after.head? ≠ some '\t')
    (he : Enters column outer indents i is new) :
    Reaches ⟨cs ++ ':' :: after, column, ⟨i, is, kinds⟩, true⟩
      (Past (kinds ++ starting new .blockMappingStart ++ [.key, .scalar cs .plain, .value]) after)
      0 := by
  have hpos := List.length_pos_iff.mpr (Plain.runs_of_safe h).ne_nil
  refine Reaches.step_two (by simp only [List.length_append, List.length_cons]; omega) fun s hs => ?_
  have hcolumn : s.mark.column = column := Int.ofNat_inj.mp hs.column
  rw [← hcolumn] at he
  have htab : ∀ c ∈ after.head?, c ≠ '\t' := by
    rintro c hc rfl
    exact ht hc
  obtain ⟨s₁, t, _, _, hact, hfinished, hstale, hnext, _, hafter⟩ :=
    Stands.implicitKey (readsKey_plain h) hl hs.stands hg htab he
  exact ⟨s₁, t, hact, hfinished, hstale, hnext, hafter.kinds_eq, hafter.rest ▸ List.suffix_refl _,
    fun fuel => hafter.givesOut (fuel + 1)⟩

end

/-- From the start of a text a scanner comes to one with a property. -/
def Arrives (text : List Char) (P : Scanner → Prop) : Prop :=
  ∃ t n, P t ∧ (∀ fuel, run (n + fuel) (Scanner.start text) = run fuel t) ∧ n ≤ text.length

section
variable (o : WriterOptions) (ls : List Level)

/-- The kinds of the tokens before what comes in these collections. -/
def kindsWithin : List Kind :=
  .streamStart :: ls.reverse.flatMap (Level.tokens o.emptyAsBraces)

/-- What is read together with the mark of an entry. -/
def markGap : List Char := if Level.lead ls = .inline then [' '] else []

/-- What lies between the mark of an entry and a collection in it, that gap apart. -/
def turn : List Char :=
  if Level.lead ls = .newline then '\n' :: blanks (Level.column o ls) else []

theorem entryStart_eq :
    written (entryStart ⟨.sequence, Level.column o ls, Level.lead ls, 0⟩) = markGap ls ++ turn o ls := by
  match ls with
  | [] => rfl
  | .items before :: ls => rfl
  | .entry before k :: ls =>
    simp [entryStart, Level.lead, markGap, turn, written, Chunk.toList, newline]

theorem margin_lt_column : Level.margin o ls < Level.column o ls := by
  match ls with
  | [] => exact Int.negSucc_lt_zero 0
  | .items before :: ls =>
    simp only [Level.margin, Level.column]
    omega
  | .entry before k :: ls =>
    simp only [Level.margin, Level.column]
    omega

theorem collected_indents : Collected (Level.indents o ls) := by
  cases ls with
  | nil => exact fun i hi => nomatch hi
  | cons l ls => exact collected_collection _ _

/-- A text leads on from wherever a scanner may stand behind the mark of the innermost entry. -/
def LeadsOn (text : List Char) (P : Scanner → Prop) : Prop :=
  ∀ here i is keyAllowed, Within (Level.margin o ls) (Level.indents o ls) i is →
    Level.margin o ls < (here : Nat) →
    (Level.lead ls ≠ .newline → here = Level.column o ls ∧ keyAllowed = true) →
    ∃ v, Follows here ⟨i, is, kindsWithin o ls⟩ keyAllowed text v ∧ Reaches v P 0

/-- What has to come after the mark: a gap after a colon, and no other blank after that of a dash. -/
def Separated (text : List Char) : Prop :=
  if Level.lead ls = .newline then gapAhead text = true
  else ∀ c ∈ text.head?, isBlank c = false ∧ c ≠ '#'

variable {o ls} {P : Scanner → Prop} {text : List Char}

/-- A collection begins in its column, on a line of its own where it is the value of a key. -/
theorem leadsOn_turn (hb : Begins text) (hne : text ≠ [])
    (h : ∀ i is, Within (Level.margin o ls) (Level.indents o ls) i is →
      Reaches ⟨text, (Level.column o ls : Nat), ⟨i, is, kindsWithin o ls⟩, true⟩ P 0) :
    LeadsOn o ls (turn o ls ++ text) P ∧ Separated ls (turn o ls ++ text) := by
  have hlt := margin_lt_column o ls
  by_cases hlead : Level.lead ls = .newline
  · rw [turn, Separated, if_pos hlead, if_pos hlead]
    refine ⟨fun here i is keyAllowed hw hhere _ => ?_, rfl⟩
    have hle := hw.indent_le
    refine ⟨_, .line 0 (a := ⟨Level.column o ls, text⟩) hb, ?_⟩
    rw [Ahead.view_within hne _ (by simp only; omega)]
    exact h i is hw
  · rw [turn, Separated, if_neg hlead, if_neg hlead]
    refine ⟨fun here i is keyAllowed hw hhere hcolumn => ?_, hb.head⟩
    obtain ⟨rfl, rfl⟩ := hcolumn hlead
    have hle := hw.indent_le
    refine ⟨_, .inline 0 hb hne, ?_⟩
    rw [Outline.close_self _ (by simp only; omega)]
    exact h i is hw

theorem opened_begins (o : WriterOptions) (n : Node) (c : Nat) (hb : Begins text) (hne : text ≠ []) :
    Begins (n.opened o c ++ text) ∧ n.opened o c ++ text ≠ [] := by
  cases hleaf : n.isLeaf with
  | true =>
    rw [Node.opened, if_pos hleaf]
    exact ⟨hb, hne⟩
  | false =>
    rw [Node.opened, hleaf, if_neg Bool.false_ne_true, List.append_assoc]
    refine body_begins o (fun hnone => ?_) _ _
    rw [(body_blank o hnone 0).2] at hleaf
    cases hleaf

/-- The complete entries of a collection are read, or none where there are none. -/
theorem reaches_open {n : Node} {start : Kind} {ks : List Kind}
    (hn : n.openTokens o.emptyAsBraces = start :: ks) {column : Nat} {outer i : Int}
    {indents is : List Indent} {kinds : List Kind} (he : Enters column outer indents i is true)
    (hb : Begins text) (hne : text ≠ [])
    (h : ∀ i is new kinds', Enters column outer indents i is new →
      kinds' ++ starting new start = kinds ++ n.openTokens o.emptyAsBraces →
      Reaches ⟨text, column, ⟨i, is, kinds'⟩, true⟩ P 0) :
    Reaches ⟨n.opened o column ++ text, column, ⟨i, is, kinds⟩, true⟩ P 0 := by
  have hcolumn : (⟨column, text⟩ : Ahead).column ≤ (column : Int) :=
    Int.le_of_eq (by rw [Ahead.column, if_neg hne])
  have hview (kinds : List Kind) : Ahead.view ⟨column, text⟩ ⟨column, ⟨outer, true⟩ :: indents, kinds⟩ =
      ⟨text, column, ⟨column, ⟨outer, true⟩ :: indents, kinds⟩, true⟩ :=
    Ahead.view_within hne _ (Int.le_refl _)
  match n with
  | .scalar _ _ => exact nomatch hn
  | .sequence [] =>
    obtain ⟨rfl, rfl⟩ := List.cons.inj hn
    exact h i is true kinds he rfl
  | .mapping [] =>
    obtain ⟨rfl, rfl⟩ := List.cons.inj hn
    exact h i is true kinds he rfl
  | .sequence (m :: items) =>
    obtain ⟨rfl, rfl⟩ := List.cons.inj hn
    rw [Node.opened, show (Node.sequence (m :: items)).isLeaf = false from rfl,
      if_neg Bool.false_ne_true, List.append_assoc]
    refine (leads_sequence (a := ⟨column, text⟩) (reads_node o m) (reads_items o items) he hb hcolumn
      kinds).reaches ?_
    rw [hview]
    exact h _ _ false _ .next (by simp [starting, Node.openTokens])
  | .mapping ((k, m) :: entries) =>
    obtain ⟨rfl, rfl⟩ := List.cons.inj hn
    rw [Node.opened, show (Node.mapping ((k, m) :: entries)).isLeaf = false from rfl,
      if_neg Bool.false_ne_true, List.append_assoc]
    refine (leads_mapping (a := ⟨column, text⟩) (reads_node o m) (reads_entries o entries) he hb hcolumn
      kinds).reaches ?_
    rw [hview]
    exact h _ _ false _ .next (by simp [starting, Node.openTokens])

/-- The same from the start of the text, if what is in the collections around leads on from there. -/
theorem arrives_open
    (harrives : ∀ text, Separated ls text → LeadsOn o ls text P →
      Arrives (Level.text o ls ++ (markGap ls ++ text)) P)
    {n : Node} {start : Kind} {ks : List Kind} (hn : n.openTokens o.emptyAsBraces = start :: ks)
    (hb : Begins text) (hne : text ≠ [])
    (h : ∀ i is new kinds, Enters (Level.column o ls) (Level.margin o ls) (Level.indents o ls) i is new →
      kinds ++ starting new start = kindsWithin o ls ++ n.openTokens o.emptyAsBraces →
      Reaches ⟨text, (Level.column o ls : Nat), ⟨i, is, kinds⟩, true⟩ P 0) :
    Arrives (Level.text o ls ++ (n.begun o (Level.lead ls) (Level.column o ls) ++ text)) P := by
  obtain ⟨hbegins, hopened⟩ := opened_begins o n (Level.column o ls) hb hne
  obtain ⟨hlead, hparts⟩ := leadsOn_turn hbegins hopened fun i is hw =>
    reaches_open hn (.first hw (collected_indents o ls) (margin_lt_column o ls)) hb hne h
  rw [Node.begun, entryStart_eq, List.append_assoc, List.append_assoc]
  exact harrives _ hparts hlead

/-- What leads on behind the innermost collection leads on from the start. -/
theorem arrives (ls : List Level) (text : List Char) (ht : Separated ls text) (h : LeadsOn o ls text P) :
    Arrives (Level.text o ls ++ (markGap ls ++ text)) P := by
  match ls with
  | [] =>
    obtain ⟨v, hv, hreaches⟩ := h 0 (-1) [] true .flush (margin_lt_column o []) fun _ => ⟨rfl, rfl⟩
    have hquiet : (Scanner.start text).Quiet := ⟨rfl, rfl, rfl, rfl, rfl⟩
    obtain ⟨t, n, ht, hrun, hn⟩ := hreaches _ (Follows.rests hquiet rfl hv)
    exact ⟨t, n, ht, hrun, Nat.le_trans hn hv.length_le⟩
  | .items before :: ls =>
    have hbegins : Begins ('-' :: ' ' :: text) := ⟨by decide, by decide, by decide⟩
    have harrives := arrives_open (arrives ls) (n := .sequence before) rfl hbegins
      (List.cons_ne_nil _ _) fun i is new kinds he hkinds => by
        refine reaches_dash he ht fun i' is' hw => ?_
        rw [hkinds]
        obtain ⟨v, hv, hreaches⟩ := h _ i' is' true hw
          (margin_lt_column o (.items before :: ls)) fun _ => ⟨rfl, rfl⟩
        exact ⟨v, by simpa [kindsWithin, Level.tokens, Level.column] using hv, hreaches⟩
    simpa [Level.text, markGap, Level.lead] using harrives
  | .entry before k :: ls =>
    obtain ⟨hbegins, hne⟩ := keyText_begins (Level.column o ls) k text
    have harrives := arrives_open (arrives ls) (n := .mapping before) rfl hbegins hne
      fun i is new kinds he hkinds => by
        refine reaches_keyText k he ht fun here i' is' keyAllowed hw hhere => ?_
        rw [hkinds]
        obtain ⟨v, hv, hreaches⟩ := h here i' is' keyAllowed hw
          (by simp only [Level.margin]; omega) fun hlead => absurd rfl hlead
        exact ⟨v, by simpa [kindsWithin, Level.tokens] using hv, hreaches⟩
    simpa [Level.text, markGap, Level.lead] using harrives

/-- At every place a safe text is read as one scalar from the start of the text. -/
theorem arrives_spot {cs follow : List Char} (hcs : Scalar.isPlainSafe cs = true) {p : Spot}
    (hp : p.Allows o cs.length follow) :
    Arrives (p.text o ++ (cs ++ follow))
      (Past (.streamStart :: (p.tokens o.emptyAsBraces ++ .scalar cs .plain :: p.closing))
        follow.tail) := by
  have hne (rest : List Char) : cs ++ rest ≠ [] := fun h =>
    (Plain.runs_of_safe hcs).ne_nil (List.append_eq_nil_iff.mp h).1
  cases hp with
  | @node ls after h =>
    have hbegins : Begins (cs ++ '\n' :: after) := begins_plain hcs (by simp)
    obtain ⟨k, htext, hparts⟩ : ∃ k, (Spot.node ls).text o =
          Level.text o ls ++ (markGap ls ++ List.replicate k ' ') ∧
        Separated ls (List.replicate k ' ' ++ (cs ++ '\n' :: after)) := by
      match ls with
      | [] => exact ⟨0, rfl, hbegins.head⟩
      | .items before :: ls => exact ⟨0, rfl, hbegins.head⟩
      | .entry before key :: ls => exact ⟨1, rfl, rfl⟩
    rw [htext, List.append_assoc, List.append_assoc]
    refine arrives ls _ hparts fun here i is keyAllowed hw hhere _ => ?_
    refine ⟨_, .inline k hbegins (hne _), ?_⟩
    have hle := hw.indent_le
    rw [Outline.close_self _ (by simp only; omega)]
    have hreaches : Reaches ⟨cs ++ '\n' :: after, (here + k : Nat), ⟨i, is, kindsWithin o ls⟩,
        keyAllowed⟩ _ 0 := reaches_plain hcs h hw (collected_indents o ls) (by omega)
    simpa [kindsWithin, Spot.tokens, Spot.closing] using hreaches
  | @marked ls before after h =>
    have hplain : Begins (cs ++ '\n' :: after) := begins_plain hcs (by simp)
    have hbegins : Begins ('?' :: ' ' :: (cs ++ '\n' :: after)) := ⟨by decide, by decide, by decide⟩
    have harrives := arrives_open (P := Past (kindsWithin o ls ++
        (Node.mapping before).openTokens o.emptyAsBraces ++ [.key] ++ [.scalar cs .plain]) after)
      (arrives ls) (n := .mapping before) rfl hbegins (List.cons_ne_nil _ _)
      fun i is new kinds he hkinds => by
        refine reaches_explicit he hplain (hne _) ?_
        rw [hkinds]
        exact reaches_plain hcs h .flush (collected_collection _ _) (by omega)
    simpa [Spot.text, Spot.tokens, Spot.closing, kindsWithin] using harrives
  | @unmarked ls before after hl hg ht =>
    have hplain : Begins (cs ++ ':' :: after) := begins_plain hcs (by simp)
    have harrives := arrives_open (P := Past (kindsWithin o ls ++
        (Node.mapping before).openTokens o.emptyAsBraces ++ [.key, .scalar cs .plain, .value]) after)
      (arrives ls) (n := .mapping before) rfl hplain (hne _) fun i is new kinds he hkinds => by
        rw [← hkinds]
        exact reaches_plainKey hcs hl hg ht he
    simpa [Spot.text, Spot.tokens, Spot.closing, kindsWithin] using harrives

/-- The scan of the whole text comes to where the safe text has been read, and to nothing behind what
ends it. -/
theorem scan_spot {cs follow : List Char} (hcs : Scalar.isPlainSafe cs = true) {p : Spot}
    (hp : p.Allows o cs.length follow) :
    ∃ s fuel, scan (p.text o ++ (cs ++ follow)) = run (fuel + 1) s ∧
      Past (.streamStart :: (p.tokens o.emptyAsBraces ++ .scalar cs .plain :: p.closing))
        (follow.takeWhile fun c => c != '\x00').tail s := by
  have hcut : (p.text o ++ (cs ++ follow)).takeWhile (fun c => c != '\x00') =
      p.text o ++ (cs ++ follow.takeWhile fun c => c != '\x00') := by
    rw [List.takeWhile_append_of_pos, List.takeWhile_append_of_pos]
    · intro c hc
      exact bne_iff_ne.mpr (Plain.safe_ordinary ((Plain.runs_of_safe hcs).safe c hc)).2.2
    · intro c hc
      refine bne_iff_ne.mpr ?_
      rintro rfl
      exact p.text_not_null o hc
  obtain ⟨s, n, hs, hrun, hn⟩ := arrives_spot hcs hp.cut
  obtain ⟨extra, hextra⟩ := Nat.exists_eq_add_of_le hn
  refine ⟨s, extra + 1, ?_, hs⟩
  rw [scan, hcut, hextra, Nat.add_assoc]
  exact hrun (extra + 2)

end

end YamlCodec.Token
