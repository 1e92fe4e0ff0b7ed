import YamlCodec.Proofs.Scalar.Bare
import YamlCodec.Proofs.Scalar.Cascade
import YamlCodec.Proofs.Value.Node
import YamlCodec.Proofs.Writer.Reading

/-!
# The walk over a value and the building of it

A reader tells a scalar in the style it was written in, and nothing else about it. So told, the walk
over a value builds the value: no text of a number, boolean or null is quoted, no string that is left
plain denotes anything else, and keys are not resolved at all.
-/

set_option autoImplicit false

namespace YamlCodec
open YamlCodec.Text

/-- What the walk hands to a builder. -/
def Cue.part? : Cue → Option Decode.Part.Kind
  | .event e => e.part?
  | .tooDeep _ => none

namespace Value

/-- A text that is never quoted has the value it is inferred to have. -/
theorem bare_value (braces : Bool) {cs : List Char} {v : Value}
    (hsafe : Scalar.isPlainSafe cs = true) (hv : Scalar.inferred? cs = some v) :
    ((bareNode cs).tree braces).value? = some v := by
  rw [bareNode, Writer.Node.tree, Decode.Tree.value?, Writer.Presentation.style,
    String.toList_ofList, if_pos hsafe]
  simp [Scalar.resolve, Scalar.Style.isQuoted, Scalar.infer, hv]

/-- A string that is left plain is read as itself, and a quoted one anyway. -/
theorem string_value (braces : Bool) (s : String) :
    ((node (string s)).tree braces).value? = some (string s) := by
  rw [node, Writer.Node.tree, Decode.Tree.value?]
  by_cases hq : Scalar.needsQuotes s = true
  · rw [if_pos hq]
    rfl
  · rw [if_neg hq, Writer.Presentation.style]
    split
    · have hnone : Scalar.inferred? s.toList = none := by
        rwa [Scalar.needsQuotes_eq, Option.not_isSome_iff_eq_none] at hq
      simp [Scalar.resolve, Scalar.Style.isQuoted, Scalar.infer, hnone]
    · rfl

mutual

/-- Read where it was written a value is itself, but for empty collections without brackets. -/
theorem tree_value (braces : Bool) (v : Value) (h : v.DistinctKeys) :
    (v.node.tree braces).value? = some (if braces then v else v.blanked) := by
  match v with
  | null => cases braces <;> exact bare_value _ rfl rfl
  | bool true => cases braces <;> exact bare_value _ rfl rfl
  | bool false => cases braces <;> exact bare_value _ rfl rfl
  | integer i =>
    rw [node, bare_value braces (Scalar.isPlainSafe_integer _) (Scalar.inferred?_integer i)]
    cases braces <;> rfl
  | double d =>
    rw [node, bare_value braces (Scalar.isPlainSafe_double d) (Scalar.inferred?_double d)]
    cases braces <;> rfl
  | string s =>
    rw [string_value]
    cases braces <;> rfl
  | array [] => cases braces <;> rfl
  | array (v :: rest) =>
    have hitems := items_value braces (v :: rest) h
    rw [node, itemNodes, Writer.Node.tree, ← itemNodes, Decode.Tree.value?, hitems]
    cases braces <;> rfl
  | object [] => cases braces <;> rfl
  | object ((k, v) :: rest) =>
    have hentries := entries_value braces ((k, v) :: rest) h.2 [] h.1
    rw [node, entryNodes, Writer.Node.tree, ← entryNodes, Decode.Tree.value?, hentries]
    cases braces <;> rfl

theorem items_value (braces : Bool) (items : List Value) (h : ItemsDistinct items) :
    Decode.Tree.itemValues? (Writer.Node.itemTrees braces (itemNodes items)) =
      some (if braces then items else itemsBlanked items) := by
  match items with
  | [] => cases braces <;> rfl
  | v :: rest =>
    rw [itemNodes, Writer.Node.itemTrees, Decode.Tree.itemValues?, tree_value braces v h.1,
      items_value braces rest h.2]
    cases braces <;> rfl

/-- Inserting new keys one after the other appends their entries. -/
theorem entries_value (braces : Bool) (entries : List (String × Value))
    (h : EntriesDistinct entries) (found : Entries)
    (hk : (Entries.keys found ++ Entries.keys entries).Nodup) :
    Decode.Tree.insertAll? found (Writer.Node.entryTrees braces (entryNodes entries)) =
      some (found ++ (if braces then entries else entriesBlanked entries)) := by
  match entries with
  | [] =>
    cases braces <;>
      simp [entryNodes, Writer.Node.entryTrees, Decode.Tree.insertAll?, entriesBlanked]
  | (k, v) :: rest =>
    have hnew : k ∉ Entries.keys found := by
      intro hm
      exact (List.nodup_append.mp hk).2.2 k hm k List.mem_cons_self rfl
    rw [entryNodes, Writer.Node.entryTrees, Decode.Tree.insertAll?, tree_value braces v h.1]
    simp only [Decode.Tree.key?, Option.bind_some]
    rw [Entries.insert_new hnew, entries_value braces rest h.2]
    · cases braces <;> simp [entriesBlanked]
    · simpa [Entries.keys] using hk

end

/-- A value whose nesting the walk allows is built again from what the walk hands over, whatever parts
come after. -/
theorem build_inverts_walk (v : Value) (hv : v.DistinctKeys) {limit : Nat} (hd : v.depth ≤ limit) :
    ∃ kinds : List Decode.Part.Kind, (v.cues limit 0).map Cue.part? = kinds.map some ∧
      ∀ (ending : Decode.Ending) (parts rest : List Decode.Part),
        parts.map Decode.Part.kind = kinds →
          Decode.build ending [] (parts ++ rest) = (.ok v, rest) := by
  refine ⟨(v.node.tree true).kinds, ?_, fun ending parts rest hp => ?_⟩
  · rw [cues_eq v (by omega), List.map_map, ← Writer.Node.kinds_tree]
    rfl
  · have hvalue := tree_value true v hv
    rcases Decode.build_tree ending (v.node.tree true) [] rfl hp rest with ⟨w, hw, hb⟩ | ⟨hw, _⟩
    · obtain rfl : v = w := by simpa [hvalue] using hw
      exact hb
    · simp [hvalue] at hw

theorem build_inverts_walk_nested :
    ∃ kinds : List Decode.Part.Kind,
      ((object [("a", array [integer 1, string "1", double (.zero true)]), ("b", null)]).cues 2 0).map
        Cue.part? = kinds.map some ∧
      ∀ (ending : Decode.Ending) (parts rest : List Decode.Part),
        parts.map Decode.Part.kind = kinds →
          Decode.build ending [] (parts ++ rest) =
            (.ok (object [("a", array [integer 1, string "1", double (.zero true)]), ("b", null)]),
              rest) :=
  build_inverts_walk _ (by simp [DistinctKeys, EntriesDistinct, ItemsDistinct, Entries.keys])
    (by decide)

end Value
end YamlCodec
