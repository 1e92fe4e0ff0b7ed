import YamlCodec.Proofs.Token.Brackets
import YamlCodec.Proofs.Token.Entry
import YamlCodec.Proofs.Token.Key
import YamlCodec.Proofs.Writer.Layout
import YamlCodec.Proofs.Writer.Reading

/-!
# Tokens of a node

The block layout of a node is read as the tokens of the node, whatever lies further out on the next
line. The proof follows the layout: a leaf, or the entries of a collection one after the other, each
with the node in it.
-/

set_option autoImplicit false

namespace YamlCodec.Token
open YamlCodec.Source YamlCodec.Lexeme YamlCodec.Writer

theorem render_plain_or_quoted (text : String) (p : Presentation) :
    (Scalar.isPlainSafe text.toList = true ∧ render text p = text.toList ∧
      scalarKind text p = .scalar text.toList .plain) ∨
    (render text p = Scalar.Quoted.encode text.toList ∧
      scalarKind text p = .scalar text.toList .doubleQuoted) := by
  cases p with
  | any =>
    by_cases h : Scalar.isPlainSafe text.toList = true
    · exact .inl ⟨h, by rw [render, if_pos h], by rw [scalarKind, Presentation.style, if_pos h]⟩
    · exact .inr ⟨by rw [render, if_neg h], by rw [scalarKind, Presentation.style, if_neg h]⟩
  | doubleQuoted => exact .inr ⟨rfl, rfl⟩

theorem render_ne_nil (text : String) (p : Presentation) : render text p ≠ [] := by
  obtain ⟨h, hrender, _⟩ | ⟨hrender, _⟩ := render_plain_or_quoted text p
  · rw [hrender]
    exact (Plain.runs_of_safe h).ne_nil
  · rw [hrender]
    exact List.cons_ne_nil _ _

theorem render_begins (text : String) (p : Presentation) {rest : List Char}
    (hr : ∀ x ∈ rest.head?, x = ':' ∨ x = '\n') : Begins (render text p ++ rest) := by
  obtain ⟨h, hrender, _⟩ | ⟨hrender, _⟩ := render_plain_or_quoted text p
  · rw [hrender]
    exact begins_plain h hr
  · rw [hrender]
    exact ⟨by decide, by decide, by decide⟩

theorem readsKey_render (text : String) (p : Presentation) :
    ReadsKey (render text p) (scalarKind text p) := by
  obtain ⟨h, hrender, hkind⟩ | ⟨hrender, hkind⟩ := render_plain_or_quoted text p
  · rw [hrender, hkind]
    exact readsKey_plain h
  · rw [hrender, hkind]
    exact readsKey_quoted text.toList

section
variable {column i : Int} {indents is : List Indent} {here : Nat} {a : Ahead}

theorem leads_leaf (text : String) (p : Presentation) (hw : Within column indents i is)
    (hc : Collected indents) (hhere : column < here) (hb : Begins a.content)
    (ha : a.column ≤ column) (kinds : List Kind) (keyAllowed : Bool) :
    Leads ⟨render text p ++ '\n' :: a.text, here, ⟨i, is, kinds⟩, keyAllowed⟩
      (a.view ⟨column, indents, kinds ++ [scalarKind text p]⟩) := by
  obtain ⟨h, hrender, hkind⟩ | ⟨hrender, hkind⟩ := render_plain_or_quoted text p
  · rw [hrender, hkind]
    exact leads_plain hw hhere hb ha kinds keyAllowed h hc
  · rw [hrender, hkind]
    exact leads_quoted hw hhere hb ha kinds keyAllowed text.toList

end

section
variable (o : WriterOptions)

/-- Wherever the node may begin, its layout is read as its tokens, up to the next line. -/
def Reads (n : Node) : Prop :=
  ∀ {column here : Nat} {outer i : Int} {indents is : List Indent} {a : Ahead} {keyAllowed : Bool}
    (kinds : List Kind), n.tokens o.emptyAsBraces ≠ [] → Within outer indents i is →
    Collected indents → outer < here → n.isLeaf = true ∨ (here = column ∧ keyAllowed = true) →
    Begins a.content → a.column ≤ outer →
    Leads ⟨n.body o column ++ a.text, here, ⟨i, is, kinds⟩, keyAllowed⟩
      (a.view ⟨outer, indents, kinds ++ n.tokens o.emptyAsBraces⟩)

/-- The items on the lines that follow are read, their sequence being left open. -/
def ReadsItems (items : List Node) : Prop :=
  ∀ {column : Nat} {outer : Int} {indents : List Indent} {a : Ahead}, Begins a.content →
    a.column ≤ column →
    ∃ b : Ahead, b.text = Node.itemBodies o column items ++ a.text ∧ Begins b.content ∧
      b.column ≤ column ∧ ∀ kinds : List Kind,
        Leads (b.view ⟨column, ⟨outer, true⟩ :: indents, kinds⟩)
          (a.view ⟨column, ⟨outer, true⟩ :: indents,
            kinds ++ Node.itemTokens o.emptyAsBraces items⟩)

def ReadsEntries (entries : List (Key × Node)) : Prop :=
  ∀ {column : Nat} {outer : Int} {indents : List Indent} {a : Ahead}, Begins a.content →
    a.column ≤ column →
    ∃ b : Ahead, b.text = Node.entryBodies o column entries ++ a.text ∧ Begins b.content ∧
      b.column ≤ column ∧ ∀ kinds : List Kind,
        Leads (b.view ⟨column, ⟨outer, true⟩ :: indents, kinds⟩)
          (a.view ⟨column, ⟨outer, true⟩ :: indents,
            kinds ++ Node.entryTokens o.emptyAsBraces entries⟩)

theorem body_blank {n : Node} (h : n.tokens o.emptyAsBraces = []) (column : Nat) :
    n.body o column = ['\n'] ∧ n.isLeaf = true := by
  match n with
  | .scalar text p => simp [Node.tokens] at h
  | .sequence [] =>
    rw [Node.tokens] at h
    cases hb : o.emptyAsBraces with
    | true => simp [hb] at h
    | false => exact ⟨by rw [Node.body, hb]; rfl, rfl⟩
  | .sequence (n :: rest) => simp [Node.tokens] at h
  | .mapping [] =>
    rw [Node.tokens] at h
    cases hb : o.emptyAsBraces with
    | true => simp [hb] at h
    | false => exact ⟨by rw [Node.body, hb]; rfl, rfl⟩
  | .mapping (e :: rest) => simp [Node.tokens] at h

theorem keyText_begins (column : Nat) (k : Key) (rest : List Char) :
    Begins (keyText column k ++ rest) ∧ keyText column k ++ rest ≠ [] := by
  by_cases h : maxImplicitKey < (render k.1 k.2).length
  · rw [keyText, if_pos h]
    exact ⟨⟨by decide, by decide, by decide⟩, List.cons_ne_nil _ _⟩
  · rw [keyText, if_neg h, List.append_assoc]
    exact ⟨render_begins k.1 k.2 (by simp), by simp⟩

theorem body_begins {n : Node} (h : n.tokens o.emptyAsBraces ≠ []) (column : Nat)
    (rest : List Char) : Begins (n.body o column ++ rest) ∧ n.body o column ++ rest ≠ [] := by
  match n with
  | .scalar text p =>
    rw [Node.body, List.append_assoc]
    exact ⟨render_begins text p (by simp), by simp⟩
  | .sequence [] =>
    cases hb : o.emptyAsBraces with
    | true =>
      rw [Node.body, hb]
      exact ⟨⟨by decide, by decide, by decide⟩, List.cons_ne_nil _ _⟩
    | false => simp [Node.tokens, hb] at h
  | .sequence (n :: rest) =>
    rw [Node.body]
    exact ⟨⟨by decide, by decide, by decide⟩, List.cons_ne_nil _ _⟩
  | .mapping [] =>
    cases hb : o.emptyAsBraces with
    | true =>
      rw [Node.body, hb]
      exact ⟨⟨by decide, by decide, by decide⟩, List.cons_ne_nil _ _⟩
    | false => simp [Node.tokens, hb] at h
  | .mapping ((k, n) :: entries) =>
    rw [Node.body, List.append_assoc]
    exact keyText_begins column k _

section
variable {o}

theorem follows_inline {n : Node} (hn : Reads o n) {column here there : Nat} {i : Int}
    {indents is : List Indent} (hw : Within column indents i is) (hc : Collected indents) {k : Nat}
    (hhere : column < here) (hk : n.isLeaf = true ∨ there = here + k) {a : Ahead}
    (hb : Begins a.content) (ha : a.column ≤ column) (kinds : List Kind) (keyAllowed : Bool)
    (hkey : n.isLeaf = true ∨ keyAllowed = true) :
    ∃ v, Follows here ⟨i, is, kinds⟩ keyAllowed
        (List.replicate k ' ' ++ (n.body o there ++ a.text)) v ∧
      Leads v (a.view ⟨column, indents, kinds ++ n.tokens o.emptyAsBraces⟩) := by
  by_cases hblank : n.tokens o.emptyAsBraces = []
  · obtain ⟨hbody, _⟩ := body_blank o hblank there
    rw [hbody, hblank, List.append_nil]
    refine ⟨_, .line k hb, ?_⟩
    rw [Ahead.view, hw.close ha]
    exact Leads.refl _
  · obtain ⟨hbegins, hne⟩ := body_begins o hblank there a.text
    refine ⟨_, .inline k hbegins hne, ?_⟩
    have hle := hw.indent_le
    rw [Outline.close_self _ (by simp only; omega)]
    refine hn kinds hblank hw hc (by omega) ?_ hb ha
    rcases hk with hk | hk
    · exact .inl hk
    · rcases hkey with hkey | hkey
      · exact .inl hkey
      · exact .inr ⟨hk.symm, hkey⟩

theorem follows_gap {n : Node} (hn : Reads o n) {column here there : Nat} {i : Int}
    {indents is : List Indent} (hw : Within column indents i is) (hc : Collected indents)
    (hhere : column < here) (hthere : column < there) {a : Ahead}
    (hb : Begins a.content) (ha : a.column ≤ column) (kinds : List Kind) (keyAllowed : Bool) :
    ∃ v, Follows here ⟨i, is, kinds⟩ keyAllowed
        (n.gap .newline there ++ (n.body o there ++ a.text)) v ∧
      Leads v (a.view ⟨column, indents, kinds ++ n.tokens o.emptyAsBraces⟩) := by
  cases hleaf : n.isLeaf with
  | true =>
    rw [show n.gap .newline there = [' '] by simp [Node.gap, hleaf]]
    exact follows_inline hn hw hc (k := 1) hhere (.inl hleaf) hb ha kinds keyAllowed (.inl hleaf)
  | false =>
    have hblank : n.tokens o.emptyAsBraces ≠ [] := by
      intro hblank
      rw [(body_blank o hblank there).2] at hleaf
      simp at hleaf
    obtain ⟨hbegins, hne⟩ := body_begins o hblank there a.text
    rw [show n.gap .newline there = '\n' :: blanks there by simp [Node.gap, hleaf],
      List.cons_append]
    refine ⟨_, .line 0 (a := ⟨there, n.body o there ++ a.text⟩) hbegins, ?_⟩
    have hle := hw.indent_le
    rw [Ahead.view_within hne _ (by simp only; omega)]
    exact hn kinds hblank hw hc (by omega) (.inr ⟨rfl, rfl⟩) hb ha

theorem collected_collection (outer : Int) (indents : List Indent) :
    Collected (⟨outer, true⟩ :: indents) := by
  intro j hj
  obtain rfl := Option.some.inj hj
  rfl

theorem body_head (n : Node) (column : Nat) (rest : List Char) :
    ∀ c ∈ (n.body o column ++ rest).head?, isBlank c = false ∧ c ≠ '#' := by
  by_cases hblank : n.tokens o.emptyAsBraces = []
  · rw [(body_blank o hblank column).1]
    simp [isBlank]
  · exact (body_begins o hblank column rest).1.head

theorem gap_inline (n : Node) (column : Nat) : n.gap .inline column = [' '] := by
  cases hleaf : n.isLeaf <;> simp [Node.gap, hleaf]

theorem gap_newline (n : Node) (column : Nat) (rest : List Char) :
    gapAhead (n.gap .newline column ++ rest) = true ∧
      ∀ c ∈ (n.gap .newline column ++ rest).head?, c ≠ '\t' := by
  cases hleaf : n.isLeaf <;> simp [Node.gap, hleaf, gapAhead, isBlank, isBreak]

theorem leads_item {n : Node} (hn : Reads o n) {column : Nat} {outer i : Int}
    {indents is : List Indent} {new : Bool} (he : Enters column outer indents i is new) {a : Ahead}
    (hb : Begins a.content) (ha : a.column ≤ column) (kinds : List Kind) :
    Leads ⟨'-' :: (n.gap .inline (column + 2) ++ (n.body o (column + 2) ++ a.text)), column,
        ⟨i, is, kinds⟩, true⟩
      (a.view ⟨column, ⟨outer, true⟩ :: indents,
        kinds ++ starting new .blockSequenceStart ++ [.blockEntry] ++
          n.tokens o.emptyAsBraces⟩) := by
  rw [gap_inline]
  refine reaches_dash he (body_head n (column + 2) a.text) fun i' is' hw => ?_
  exact follows_inline hn hw (collected_collection outer indents) (k := 0) (by omega) (.inr rfl) hb
    ha _ true (.inr rfl)

/-- A key is read with its colon, and what follows the gap after it leads on. -/
theorem reaches_keyText (k : Key) {column : Nat} {outer i : Int} {indents is : List Indent} {new : Bool}
    (he : Enters column outer indents i is new) {rest : List Char} (hg : gapAhead rest = true)
    {kinds : List Kind} {P : Scanner → Prop} {left : Nat}
    (h : ∀ here i' is' keyAllowed, Within column (⟨outer, true⟩ :: indents) i' is' → column < here →
      ∃ v, Follows here ⟨i', is', kinds ++ starting new .blockMappingStart ++
          [.key, scalarKind k.1 k.2, .value]⟩ keyAllowed rest v ∧ Reaches v P left) :
    Reaches ⟨keyText column k ++ rest, column, ⟨i, is, kinds⟩, true⟩ P left := by
  by_cases hlong : maxImplicitKey < (render k.1 k.2).length
  · have htext : keyText column k ++ rest =
        '?' :: ' ' :: (render k.1 k.2 ++ '\n' :: (blanks column ++ ':' :: rest)) := by
      rw [keyText, if_pos hlong]
      simp
    rw [htext]
    refine reaches_explicit he (render_begins k.1 k.2 (by simp)) (by simp) ?_
    have hcolon : Begins (':' :: rest) := ⟨by decide, by decide, by decide⟩
    have ha : (⟨column, ':' :: rest⟩ : Ahead).column ≤ (column : Int) := by simp [Ahead.column]
    have hhere : (column : Int) < (column + 2 : Nat) := by omega
    refine (leads_leaf k.1 k.2 .flush (collected_collection outer indents) hhere hcolon ha _
      true).reaches ?_
    rw [Ahead.view_within (List.cons_ne_nil _ _) _ (by simp)]
    refine reaches_colon .next hg fun i' is' hw => ?_
    have hkinds : kinds ++ starting new .blockMappingStart ++ [.key] ++ [scalarKind k.1 k.2] ++
        starting false .blockMappingStart ++ [.value] =
      kinds ++ starting new .blockMappingStart ++ [.key, scalarKind k.1 k.2, .value] := by
      simp [starting]
    rw [hkinds]
    exact h _ i' is' true hw (Nat.lt_succ_self column)
  · rw [keyText, if_neg hlong, List.append_assoc]
    exact reaches_key (readsKey_render k.1 k.2) (render_ne_nil k.1 k.2) (Nat.le_of_not_lt hlong) he hg
      fun i' is' hw => h _ i' is' false hw (by omega)

theorem leads_entry (k : Key) {n : Node} (hn : Reads o n) {column : Nat} {outer i : Int}
    {indents is : List Indent} {new : Bool} (he : Enters column outer indents i is new) {a : Ahead}
    (hb : Begins a.content) (ha : a.column ≤ column) (kinds : List Kind) :
    Leads ⟨keyText column k ++ (n.gap .newline (column + max 1 o.indentStep) ++
          (n.body o (column + max 1 o.indentStep) ++ a.text)), column, ⟨i, is, kinds⟩, true⟩
      (a.view ⟨column, ⟨outer, true⟩ :: indents,
        kinds ++ starting new .blockMappingStart ++ [.key, scalarKind k.1 k.2, .value] ++
          n.tokens o.emptyAsBraces⟩) :=
  reaches_keyText k he (gap_newline n _ _).1 fun _ _ _ keyAllowed hw hhere =>
    follows_gap hn hw (collected_collection outer indents) hhere (by omega) hb ha _
      keyAllowed

/-- A sequence is read up to the next line and left open there. -/
theorem leads_sequence {n : Node} {rest : List Node} (hn : Reads o n) (hrest : ReadsItems o rest)
    {column : Nat} {outer i : Int} {indents is : List Indent}
    (he : Enters column outer indents i is true) {a : Ahead} (hb : Begins a.content)
    (ha : a.column ≤ column) (kinds : List Kind) :
    Leads ⟨(Node.sequence (n :: rest)).body o column ++ a.text, column, ⟨i, is, kinds⟩, true⟩
      (a.view ⟨column, ⟨outer, true⟩ :: indents,
        kinds ++ .blockSequenceStart :: Node.itemTokens o.emptyAsBraces (n :: rest)⟩) := by
  obtain ⟨b, htext, hbegins, hcolumn, hitems⟩ := hrest hb ha
  have hitem := leads_item hn he hbegins hcolumn kinds
  rw [htext] at hitem
  have hlead := hitem.trans (hitems _)
  simpa [Node.body, Node.itemTokens, starting] using hlead

/-- A mapping is read up to the next line and left open there. -/
theorem leads_mapping {k : Key} {n : Node} {rest : List (Key × Node)} (hn : Reads o n)
    (hrest : ReadsEntries o rest) {column : Nat} {outer i : Int} {indents is : List Indent}
    (he : Enters column outer indents i is true) {a : Ahead} (hb : Begins a.content)
    (ha : a.column ≤ column) (kinds : List Kind) :
    Leads ⟨(Node.mapping ((k, n) :: rest)).body o column ++ a.text, column, ⟨i, is, kinds⟩, true⟩
      (a.view ⟨column, ⟨outer, true⟩ :: indents,
        kinds ++ .blockMappingStart :: Node.entryTokens o.emptyAsBraces ((k, n) :: rest)⟩) := by
  obtain ⟨b, htext, hbegins, hcolumn, hentries⟩ := hrest hb ha
  have hentry := leads_entry k hn he hbegins hcolumn kinds
  rw [htext] at hentry
  have hlead := hentry.trans (hentries _)
  simpa [Node.body, Node.entryTokens, starting] using hlead

/-- A block that is left open ends where the next line lies further out. -/
theorem view_closed {column : Nat} {outer : Int} {indents : List Indent} {a : Ahead}
    (ha : a.column ≤ outer) (hout : outer < column) (kinds : List Kind) :
    a.view ⟨column, ⟨outer, true⟩ :: indents, kinds⟩ =
      a.view ⟨outer, indents, kinds ++ [.blockEnd]⟩ := by
  rw [Ahead.view, Outline.close_collection _ _ _ _ (by omega), Ahead.view]

end

mutual

theorem reads_node (n : Node) : Reads o n := by
  intro column here outer i indents is a keyAllowed kinds hne hw hc hhere hplace hb ha
  match n with
  | .scalar text p =>
    rw [Node.body, Node.tokens, List.append_assoc]
    exact leads_leaf text p hw hc hhere hb ha kinds keyAllowed
  | .sequence [] =>
    cases hbraces : o.emptyAsBraces with
    | true =>
      rw [Node.body, Node.tokens, hbraces]
      exact leads_brackets ⟨true⟩ hw hhere hb ha kinds keyAllowed
    | false => simp [Node.tokens, hbraces] at hne
  | .mapping [] =>
    cases hbraces : o.emptyAsBraces with
    | true =>
      rw [Node.body, Node.tokens, hbraces]
      exact leads_brackets ⟨false⟩ hw hhere hb ha kinds keyAllowed
    | false => simp [Node.tokens, hbraces] at hne
  | .sequence (n :: rest) =>
    obtain ⟨rfl, rfl⟩ := hplace.resolve_left (by simp [Node.isLeaf])
    have hlead := leads_sequence (reads_node n) (reads_items rest) (.first hw hc hhere) hb (by omega)
      kinds
    rw [view_closed ha hhere] at hlead
    simpa [Node.tokens] using hlead
  | .mapping ((k, n) :: rest) =>
    obtain ⟨rfl, rfl⟩ := hplace.resolve_left (by simp [Node.isLeaf])
    have hlead := leads_mapping (k := k) (reads_node n) (reads_entries rest) (.first hw hc hhere) hb
      (by omega) kinds
    rw [view_closed ha hhere] at hlead
    simpa [Node.tokens] using hlead

theorem reads_items (items : List Node) : ReadsItems o items := by
  intro column outer indents a hb ha
  match items with
  | [] => exact ⟨a, rfl, hb, ha, fun kinds => by rw [Node.itemTokens, List.append_nil]; exact .refl _⟩
  | n :: rest =>
    -- an item is read up to the next line, so the lines after it are known first
    obtain ⟨b, htext, hbegins, hcolumn, hitems⟩ := reads_items rest hb ha
    refine ⟨⟨column, '-' :: (n.gap .inline (column + 2) ++ (n.body o (column + 2) ++ b.text))⟩, ?_,
      ⟨by decide, by decide, by decide⟩, by simp [Ahead.column], fun kinds => ?_⟩
    · rw [htext]
      simp [Ahead.text, Node.itemBodies]
    · rw [Ahead.view_within (List.cons_ne_nil _ _) _ (by simp)]
      have hlead := (leads_item (reads_node n) .next hbegins hcolumn kinds).trans (hitems _)
      simpa [Node.itemTokens, starting] using hlead

theorem reads_entries (entries : List (Key × Node)) : ReadsEntries o entries := by
  intro column outer indents a hb ha
  match entries with
  | [] => exact ⟨a, rfl, hb, ha, fun kinds => by rw [Node.entryTokens, List.append_nil]; exact .refl _⟩
  | (k, n) :: rest =>
    obtain ⟨b, htext, hbegins, hcolumn, hentries⟩ := reads_entries rest hb ha
    obtain ⟨hkey, hne⟩ := keyText_begins column k (n.gap .newline (column + max 1 o.indentStep) ++
      (n.body o (column + max 1 o.indentStep) ++ b.text))
    refine ⟨⟨column, _⟩, ?_, hkey, ?_, fun kinds => ?_⟩
    · rw [htext]
      simp [Ahead.text, Node.entryBodies]
    · exact Int.le_of_eq (if_neg hne)
    · rw [Ahead.view_within hne _ (by simp)]
      have hlead := (leads_entry k (reads_node n) .next hbegins hcolumn kinds).trans (hentries _)
      simpa [Node.entryTokens, starting] using hlead

end
end

end YamlCodec.Token
