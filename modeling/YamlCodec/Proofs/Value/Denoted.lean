import YamlCodec.Proofs.Writer.Reading

/-!
# The value of a node

What a node says to a reader of its events: keys are taken as they are, quoted scalars are strings, and
any other text is what it is read as without quotes. With brackets around empty collections the tree that
is read where a node was written has this value.
-/

set_option autoImplicit false

namespace YamlCodec.Writer.Node
open YamlCodec.Decode

mutual

def value : Node → Value
  | scalar text .doubleQuoted => .string text
  | scalar text .any =>
    if Scalar.isPlainSafe text.toList then Scalar.infer text else .string text
  | sequence items => .array (itemValues items)
  | mapping entries => .object (Entries.insertAll [] (entryValues entries))

def itemValues : List Node → List Value
  | [] => []
  | n :: rest => value n :: itemValues rest

def entryValues : List (Key × Node) → List (String × Value)
  | [] => []
  | (k, n) :: rest => (k.1, value n) :: entryValues rest

end

theorem value_scalar (text : String) (p : Presentation) :
    (scalar text p).value = Scalar.resolve text (p.style text) none := by
  cases p with
  | doubleQuoted => rfl
  | any =>
    rw [value, Presentation.style]
    split <;> rfl

mutual

theorem tree_value (n : Node) : (n.tree true).value? = some n.value := by
  match n with
  | scalar text p => exact congrArg some (value_scalar text p).symm
  | sequence [] => rfl
  | sequence (n :: rest) =>
    rw [tree, Tree.value?, itemTrees_value (n :: rest)]
    rfl
  | mapping [] => rfl
  | mapping (e :: rest) =>
    rw [tree, Tree.value?, entryTrees_value (e :: rest) []]
    rfl

theorem itemTrees_value (items : List Node) :
    Tree.itemValues? (itemTrees true items) = some (itemValues items) := by
  match items with
  | [] => rfl
  | n :: rest =>
    rw [itemTrees, Tree.itemValues?, tree_value n, itemTrees_value rest]
    rfl

theorem entryTrees_value (entries : List (Key × Node)) (found : Entries) :
    Tree.insertAll? found (entryTrees true entries) =
      some (found.insertAll (entryValues entries)) := by
  match entries with
  | [] => rfl
  | (k, n) :: rest =>
    rw [entryTrees, Tree.insertAll?, tree_value n]
    exact entryTrees_value rest (found.insert k.1 n.value)

end

end YamlCodec.Writer.Node
