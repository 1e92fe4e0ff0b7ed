import YamlCodec.Proofs.Decode.Tree
import YamlCodec.Proofs.Writer.Node
import YamlCodec.Token.Basic

/-!
# How a written node is read

The tokens and the tree that are read where a node was written. A scalar is read in the style it was
written in; an empty collection that is written without brackets has no tokens and is read as blank.
-/

set_option autoImplicit false

namespace YamlCodec.Writer

/-- The style in which a scalar is written. -/
def Presentation.style (p : Presentation) (text : String) : Scalar.Style :=
  match p with
  | .any => if Scalar.isPlainSafe text.toList then .plain else .doubleQuoted
  | .doubleQuoted => .doubleQuoted

/-- The part that is read where an event was written, if it belongs to a node. -/
def Event.part? : Event → Option Decode.Part.Kind
  | .scalar text p => some (.scalar text (p.style text) none)
  | .sequenceStart => some .sequenceStart
  | .sequenceEnd => some .sequenceEnd
  | .mappingStart => some .mappingStart
  | .mappingEnd => some .mappingEnd
  | _ => none

/-- The token that a scalar is read as. -/
def scalarKind (text : String) (p : Presentation) : Token.Kind :=
  .scalar text.toList (p.style text)

/-- The tokens that a node may begin with. -/
def OpensNode : Token.Kind → Prop
  | .scalar _ _ => True
  | .flowSequenceStart => True
  | .flowMappingStart => True
  | .blockSequenceStart => True
  | .blockMappingStart => True
  | _ => False

namespace Node

section
variable (braces : Bool)

mutual

/-- The tokens of a node; without brackets an empty collection has none. -/
def tokens : Node → List Token.Kind
  | scalar text p => [scalarKind text p]
  | sequence [] => if braces then [.flowSequenceStart, .flowSequenceEnd] else []
  | sequence (n :: rest) => .blockSequenceStart :: (itemTokens (n :: rest) ++ [.blockEnd])
  | mapping [] => if braces then [.flowMappingStart, .flowMappingEnd] else []
  | mapping (e :: rest) => .blockMappingStart :: (entryTokens (e :: rest) ++ [.blockEnd])

def itemTokens : List Node → List Token.Kind
  | [] => []
  | n :: rest => .blockEntry :: (tokens n ++ itemTokens rest)

def entryTokens : List (Key × Node) → List Token.Kind
  | [] => []
  | (k, n) :: rest => .key :: scalarKind k.1 k.2 :: .value :: (tokens n ++ entryTokens rest)

end

end

mutual

/-- The tree that is read where a node was written; without brackets an empty collection is blank. -/
def tree (braces : Bool) : Node → Decode.Tree
  | scalar text p => .scalar text (p.style text) none
  | sequence [] => if braces then .sequence [] else .scalar "~" .plain none
  | sequence (n :: rest) => .sequence (itemTrees braces (n :: rest))
  | mapping [] => if braces then .mapping [] else .scalar "~" .plain none
  | mapping (e :: rest) => .mapping (entryTrees braces (e :: rest))

def itemTrees (braces : Bool) : List Node → List Decode.Tree
  | [] => []
  | n :: rest => tree braces n :: itemTrees braces rest

def entryTrees (braces : Bool) : List (Key × Node) → List (Decode.Tree × Decode.Tree)
  | [] => []
  | (k, n) :: rest =>
    (.scalar k.1 (k.2.style k.1) none, tree braces n) :: entryTrees braces rest

end

mutual

theorem kinds_tree (n : Node) :
    n.events.map Event.part? = (n.tree true).kinds.map some := by
  match n with
  | scalar text p => rfl
  | sequence [] => rfl
  | sequence (n :: rest) =>
    rw [events, tree, Decode.Tree.kinds]
    simp [kinds_items (n :: rest), Event.part?]
  | mapping [] => rfl
  | mapping (e :: rest) =>
    rw [events, tree, Decode.Tree.kinds]
    simp [kinds_entries (e :: rest), Event.part?]

theorem kinds_items (items : List Node) :
    (itemEvents items).map Event.part? =
      (Decode.Tree.itemKinds (itemTrees true items)).map some := by
  match items with
  | [] => rfl
  | n :: rest =>
    rw [itemEvents, itemTrees, Decode.Tree.itemKinds, List.map_append, List.map_append,
      kinds_tree n, kinds_items rest]

theorem kinds_entries (entries : List (Key × Node)) :
    (entryEvents entries).map Event.part? =
      (Decode.Tree.entryKinds (entryTrees true entries)).map some := by
  match entries with
  | [] => rfl
  | (k, n) :: rest =>
    rw [entryEvents, entryTrees, Decode.Tree.entryKinds, List.map_cons, List.map_append,
      List.map_append, List.map_append, kinds_tree n, kinds_entries rest]
    rfl

end

/-- A node without tokens is read as blank. -/
theorem tokens_opens (braces : Bool) (n : Node) :
    (n.tokens braces = [] ∧ n.tree braces = .scalar "~" .plain none) ∨
      ∃ k ks, n.tokens braces = k :: ks ∧ OpensNode k := by
  match n with
  | scalar text p => exact .inr ⟨_, _, rfl, trivial⟩
  | sequence [] =>
    cases braces with
    | true => exact .inr ⟨_, _, rfl, trivial⟩
    | false => exact .inl ⟨rfl, rfl⟩
  | sequence (n :: rest) => exact .inr ⟨_, _, rfl, trivial⟩
  | mapping [] =>
    cases braces with
    | true => exact .inr ⟨_, _, rfl, trivial⟩
    | false => exact .inl ⟨rfl, rfl⟩
  | mapping (e :: rest) => exact .inr ⟨_, _, rfl, trivial⟩

theorem tokens_bracketed (n : Node) : n.tokens true ≠ [] := by
  cases n with
  | scalar text p => exact List.cons_ne_nil _ _
  | sequence items => cases items <;> exact List.cons_ne_nil _ _
  | mapping entries => cases entries <;> exact List.cons_ne_nil _ _

section
variable (braces : Bool)

mutual

/-- A node is told by not many more parts than it has tokens. -/
theorem kinds_length_le (n : Node) :
    (n.tree braces).kinds.length ≤ (n.tokens braces).length + 1 := by
  match n with
  | scalar text p => exact Nat.le_succ 1
  | sequence [] => cases braces <;> decide
  | sequence (n :: rest) =>
    have := itemKinds_length_le (n :: rest)
    simp only [tree, tokens, Decode.Tree.kinds, List.length_cons, List.length_append]
    omega
  | mapping [] => cases braces <;> decide
  | mapping (e :: rest) =>
    have := entryKinds_length_le (e :: rest)
    simp only [tree, tokens, Decode.Tree.kinds, List.length_cons, List.length_append]
    omega

theorem itemKinds_length_le (items : List Node) :
    (Decode.Tree.itemKinds (itemTrees braces items)).length ≤
      (itemTokens braces items).length := by
  match items with
  | [] => exact Nat.le_refl 0
  | n :: rest =>
    have := kinds_length_le n
    have := itemKinds_length_le rest
    simp only [itemTrees, itemTokens, Decode.Tree.itemKinds, List.length_cons, List.length_append]
    omega

theorem entryKinds_length_le (entries : List (Key × Node)) :
    (Decode.Tree.entryKinds (entryTrees braces entries)).length ≤
      (entryTokens braces entries).length := by
  match entries with
  | [] => exact Nat.le_refl 0
  | (k, n) :: rest =>
    have := kinds_length_le n
    have := entryKinds_length_le rest
    simp only [entryTrees, entryTokens, Decode.Tree.entryKinds, Decode.Tree.kinds, List.length_cons,
      List.length_append, List.length_nil]
    omega

end

end

end Node
end YamlCodec.Writer
