import YamlCodec.Proofs.Value.Column

/-!
# The block layout by columns

The text of a node at a column, line by line, by recursion over the node alone: every line of a
collection begins with the blanks of its column, but the first line of a collection that is an item
stands behind the dash. A writer never sees the node. It holds back blanks and line breaks until it
knows what comes, and what it has written in the end is this text.
-/

set_option autoImplicit false

namespace YamlCodec

namespace Writer

namespace Node

section
variable (o : WriterOptions)

mutual

/-- The lines of a node whose entries have a column. -/
def layout (column : Nat) : Node → List Char
  | scalar text p => render text p ++ ['\n']
  | sequence [] => (if o.emptyAsBraces then ['[', ']'] else []) ++ ['\n']
  | sequence (n :: rest) => itemLayouts column (n :: rest)
  | mapping [] => (if o.emptyAsBraces then ['{', '}'] else []) ++ ['\n']
  | mapping (e :: rest) => entryLayouts column (e :: rest)

/-- A collection goes on behind the dash, one blank in place of the indentation of its first entry. -/
def itemLayouts (column : Nat) : List Node → List Char
  | [] => []
  | n :: rest =>
    blanks column ++ '-' :: ' ' ::
      ((if n.isLeaf then layout (column + 2) n
        else (layout (column + 2) n).drop (column + 2)) ++
        itemLayouts column rest)

/-- A collection begins on the line after its key. -/
def entryLayouts (column : Nat) : List (Key × Node) → List Char
  | [] => []
  | (k, n) :: rest =>
    blanks column ++ (keyText column k ++
      ((if n.isLeaf then ' ' else '\n') :: layout (column + o.indentStep) n ++
        entryLayouts column rest))

end

variable {o}

mutual

/-- Behind its indentation the layout of a node is what a writer writes from its first character on. -/
theorem layout_eq (hs : 1 ≤ o.indentStep) (n : Node) (c : Nat) :
    n.layout o c = n.gap .lineStart c ++ n.body o c := by
  match n with
  | scalar text p => rfl
  | sequence [] => rfl
  | sequence (n :: rest) =>
    rw [layout, itemLayouts_eq hs (n :: rest) c]
    rfl
  | mapping [] => rfl
  | mapping ((k, n) :: rest) =>
    rw [layout, entryLayouts_eq hs ((k, n) :: rest) c]
    rfl

theorem itemLayouts_eq (hs : 1 ≤ o.indentStep) (items : List Node) (c : Nat) :
    itemLayouts o c items = itemBodies o c items := by
  match items with
  | [] => rfl
  | n :: rest =>
    rw [itemLayouts, itemBodies, layout_eq hs n (c + 2), itemLayouts_eq hs rest c]
    cases hn : n.isLeaf with
    | true => simp [gap, hn]
    | false =>
      have hdrop : (blanks (c + 2) ++ n.body o (c + 2)).drop (c + 2) = n.body o (c + 2) :=
        List.drop_left' List.length_replicate
      simp [gap, hn, hdrop]

theorem entryLayouts_eq (hs : 1 ≤ o.indentStep) (entries : List (Key × Node)) (c : Nat) :
    entryLayouts o c entries = entryBodies o c entries := by
  match entries with
  | [] => rfl
  | (k, n) :: rest =>
    have hstep : max 1 o.indentStep = o.indentStep := Nat.max_eq_right hs
    rw [entryLayouts, entryBodies, layout_eq hs n (c + o.indentStep), entryLayouts_eq hs rest c,
      hstep]
    cases hn : n.isLeaf <;> simp [gap, hn]

end

/-- A document is the layout of its root at the first column. -/
theorem text_layout (hs : 1 ≤ o.indentStep) (n : Node) : n.text o = n.layout o 0 :=
  (layout_eq hs n 0).symm

end

end Node

end Writer

/-- A value whose nesting is allowed is encoded as the layout of its node at the first column, where columns
have no bound and wherever words hold those of the value. A writer that is told a sentence, event by event,
writes the layouts of its roots one behind the other. -/
theorem encode_prints_layout (o : WriterOptions) (hs : 1 ≤ o.indentStep) :
    (∀ v : Value, v.depth ≤ o.maxDepth →
      encode v o.unbounded = .ok (String.ofList (v.node.layout o 0)) ∧
      ((∀ c ∈ v.openings o.indentStep o.maxDepth 0 0, o.Holds c) →
        encode v o = .ok (String.ofList (v.node.layout o 0)))) ∧
      ∀ (w : String) (roots : List Writer.Node),
        (Writer.Session.start ⟨w, none⟩).feedEach o.unbounded (Writer.streamEvents roots) =
          some ⟨⟨.finished, []⟩,
            ⟨w ++ String.ofList (roots.flatMap fun n => n.layout o 0), none⟩⟩ := by
  constructor
  · intro v hd
    rw [← Writer.Node.text_layout hs]
    exact ⟨v.encode_eq o hs hd, v.encode_eq_of_layout o hs hd⟩
  · intro w roots
    have htext : (fun n : Writer.Node => n.layout o 0) = fun n => n.text o :=
      funext fun n => (n.text_layout hs).symm
    rw [htext]
    exact Writer.Session.feedEach_tells (Writer.State.tells_sentence o roots) w

/-- Columns add up along the nesting, by two for an item and by the step for an entry. -/
theorem encode_prints_layout_nested :
    1 ≤ ({ indentStep := 3 } : WriterOptions).indentStep ∧
      encode (.object [("a", .array [.array [.null, .array []], .object [("b", .array [.bool true])]])])
          { indentStep := 3 } =
        .ok "a:\n   - - null\n     - []\n   - b:\n        - true\n" := by
  have hstep : 1 ≤ ({ indentStep := 3 } : WriterOptions).indentStep := by decide
  refine ⟨hstep, ?_⟩
  rw [((encode_prints_layout _ hstep).1 _ (by decide)).2 (by decide)]
  rfl

end YamlCodec
