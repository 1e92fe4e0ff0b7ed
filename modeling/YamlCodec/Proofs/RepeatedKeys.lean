import YamlCodec.Proofs.Decode.Descent
import YamlCodec.Proofs.Json.RoundTrip
import YamlCodec.Proofs.Value.Walk

/-!
# Repeated keys

Pairs become a mapping when they are collected, when the events of a mapping tell them, and when they are
the members of a JSON object. It is the same mapping every time, in which each key stands where it came
first with the value that came last.
-/

set_option autoImplicit false

namespace YamlCodec
open Decode

/-- The members of the object that is the whole text, with every repetition. -/
def Json.membersOf? (num : Numbers) (text : String) : Option (List (String × Value)) :=
  match parse? num text with
  | some (.map members) => some (Datum.pairs members)
  | _ => none

/-- An object is read as the mapping of its members. -/
theorem Json.read?_of_membersOf? {num : Numbers} {text : String} {pairs : List (String × Value)}
    (h : membersOf? num text = some pairs) : read? num text = some (.ofPairs pairs) := by
  unfold membersOf? at h
  split at h
  · rename_i members hparse
    obtain rfl := Option.some.inj h
    rw [read?, hparse, Option.map_some, Datum.value_map]
  · cases h

/-- No mapping of what is read has a key twice. -/
theorem Json.read?_distinctKeys {num : Numbers} {text : String} {v : Value}
    (h : read? num text = some v) : v.DistinctKeys := by
  obtain ⟨d, -, rfl⟩ := Option.map_eq_some_iff.mp h
  exact d.value_distinctKeys

/-- Nodes that tell pairs: the key of a pair as a scalar of any style and with any tag, and its value. -/
def Tells (nodes : List (Tree × Tree)) (pairs : List (String × Value)) : Prop :=
  List.Forall₂ (fun node pair => (∃ style tag, node.1 = .scalar pair.1 style tag) ∧
    node.2.value? = some pair.2) nodes pairs

section
variable {nodes : List (Tree × Tree)} {pairs : List (String × Value)}

theorem Tells.insertAll? (h : Tells nodes pairs) (found : Entries) :
    Tree.insertAll? found nodes = some (found.insertAll pairs) := by
  induction h generalizing found with
  | nil => rfl
  | @cons node pair nodes pairs hfirst _ ih =>
    obtain ⟨k, t⟩ := node
    obtain ⟨⟨style, tag, rfl⟩, hvalue⟩ := hfirst
    rw [Tree.insertAll?, Tree.key?, Option.bind_some, hvalue, Option.bind_some, ih]
    rfl

theorem Tells.build (h : Tells nodes pairs) (ending : Ending) {parts : List Part}
    (hp : parts.map Part.kind = (Tree.mapping nodes).kinds) (rest : List Part) :
    Decode.build ending [] (parts ++ rest) = (.ok (.ofPairs pairs), rest) := by
  have hvalue : (Tree.mapping nodes).value? = some (.ofPairs pairs) := by
    rw [Tree.value?, h.insertAll?]
    rfl
  rcases build_tree ending (.mapping nodes) [] rfl hp rest with ⟨v, hv, hbuild⟩ | ⟨hv, _⟩
  · obtain rfl := Option.some.inj (hvalue.symm.trans hv)
    exact hbuild
  · simp [hvalue] at hv

/-- The walk over a mapping tells its pairs, whether or not a key is repeated. -/
theorem tells_walk (h : ∀ p ∈ pairs, p.2.DistinctKeys) :
    Tells (Writer.Node.entryTrees true (Value.entryNodes pairs)) pairs := by
  induction pairs with
  | nil => exact .nil
  | cons p pairs ih =>
    obtain ⟨k, v⟩ := p
    obtain ⟨hfirst, hrest⟩ := List.forall_mem_cons.mp h
    exact .cons ⟨⟨_, _, rfl⟩, Value.tree_value true v hfirst⟩ (ih hrest)

/-- What is built of parts has no key twice in any mapping. -/
theorem build_distinctKeys {ending : Ending} {parts rest : List Part} {v : Value}
    (h : Decode.build ending [] parts = (.ok v, rest)) : v.DistinctKeys := by
  rcases Descent.tree_of_build ending h with ⟨_, _, rfl⟩ | ⟨t, _, _, _, ht⟩
  · trivial
  · exact Tree.value_distinct t ht

/-- The text of an object has its pairs as members, a key being repeated as often as it is there. -/
theorem membersOf?_write {num : Json.Numbers} (hnum : num.Lawful) (h : ∀ p ∈ pairs, p.2.DistinctKeys)
    (hfinite : ∀ p ∈ pairs, p.2.AllFinite) (hdepth : (Value.object pairs).depth ≤ Json.maxNesting) :
    Json.membersOf? num (String.ofList (Json.write num (.object pairs))) = some pairs := by
  have hdatum : (Value.object pairs).datum.depth ≤ Json.maxNesting := by
    rw [Value.depth_datum]
    exact hdepth
  have hnulled : Value.entriesNulled pairs = pairs :=
    Value.entriesNulled_eq_self fun p hp => Value.nulled_of_allFinite (h p hp) (hfinite p hp)
  rw [Json.membersOf?, Json.write, Json.parse?_write hnum hdatum, Value.datum, Datum.back]
  simp only [Value.pairs_back pairs (Value.entriesDistinct_iff.mpr h), hnulled]

/-- Of any pairs there is one mapping, with distinct keys in the order in which they came first and with
the value that came last for each. It is what collecting the pairs gives, what is built of events that
tell them, and what is read of a JSON object that has them as members. No mapping in what is collected,
built or read has a key twice, at any depth. -/
theorem repeated_keys_obey_one_law (h : ∀ p ∈ pairs, p.2.DistinctKeys) :
    ∃ entries : Entries,
      (entries.keys.Nodup ∧ entries.keys = (pairs.map Prod.fst).eraseDups ∧
        ∀ key, entries.get? key = pairs.reverse.lookup key) ∧
      Value.ofPairs pairs = .object entries ∧
      ((∃ nodes, Tells nodes pairs) ∧
        ∀ nodes, Tells nodes pairs → ∀ ending parts rest,
          parts.map Part.kind = (Tree.mapping nodes).kinds →
          Decode.build ending [] (parts ++ rest) = (.ok (.object entries), rest)) ∧
      (∀ num : Json.Numbers,
        (∀ text, Json.membersOf? num text = some pairs →
          Json.read? num text = some (.object entries)) ∧
        (num.Lawful → (∀ p ∈ pairs, p.2.AllFinite) → (Value.object pairs).depth ≤ Json.maxNesting →
          Json.membersOf? num (String.ofList (Json.write num (.object pairs))) = some pairs)) ∧
      ∀ v, (v = Value.ofPairs pairs ∨
          (∃ ending parts rest, Decode.build ending [] parts = (.ok v, rest)) ∨
          ∃ num text, Json.read? num text = some v) →
        v.DistinctKeys := by
  refine ⟨Entries.insertAll [] pairs, ⟨?_, Entries.keys_insertAll pairs, Entries.get?_insertAll pairs⟩,
    rfl, ⟨⟨_, tells_walk h⟩, fun nodes hnodes ending parts rest hp => hnodes.build ending hp rest⟩,
    fun num => ⟨fun text htext => Json.read?_of_membersOf? htext, fun hnum => membersOf?_write hnum h⟩, ?_⟩
  · exact Entries.insertAll_keys_nodup (show (Entries.keys []).Nodup from List.nodup_nil) pairs
  · rintro v (rfl | ⟨ending, parts, rest, hbuild⟩ | ⟨num, text, hread⟩)
    · exact Value.ofPairs_distinctKeys h
    · exact build_distinctKeys hbuild
    · exact Json.read?_distinctKeys hread

theorem repeated_keys_obey_one_law_thrice :
    let pairs : List (String × Value) :=
      [("a", .integer 1), ("b", .object [("a", .null)]), ("a", .array []), ("a", .bool true)]
    let nodes : List (Tree × Tree) :=
      [(.scalar "a" .plain none, .scalar "1" .plain none),
        (.scalar "b" .singleQuoted none, .mapping [(.scalar "a" .plain none, .alias)]),
        (.scalar "a" .doubleQuoted (some "tag:yaml.org,2002:int"), .sequence []),
        (.scalar "a" .literal none, .scalar "yes" .plain none)]
    ∃ entries : Entries, entries.keys = ["a", "b"] ∧ entries.get? "a" = some (.bool true) ∧
      Json.read? .shortest (String.ofList (Json.write .shortest (.object pairs))) =
        some (.object entries) ∧
      Decode.build (.exhausted .unknown) [] ((Tree.mapping nodes).kinds.map fun k => ⟨k, .unknown⟩) =
        (.ok (.object entries), []) := by
  intro pairs nodes
  have hdistinct : ∀ p ∈ pairs, p.2.DistinctKeys := by
    simp [pairs, Value.DistinctKeys, Value.EntriesDistinct, Value.ItemsDistinct, Entries.keys]
  have htells : Tells nodes pairs :=
    .cons ⟨⟨_, _, rfl⟩, rfl⟩ (.cons ⟨⟨_, _, rfl⟩, rfl⟩ (.cons ⟨⟨_, _, rfl⟩, rfl⟩
      (.cons ⟨⟨_, _, rfl⟩, rfl⟩ .nil)))
  have hfinite : ∀ p ∈ pairs, p.2.AllFinite := by
    intro p hp
    rw [← Value.nulled_eq_self_iff (hdistinct p hp)]
    revert p
    simp [pairs, Value.nulled, Value.itemsNulled, Value.entriesNulled]
  obtain ⟨entries, ⟨-, hkeys, hget⟩, -, ⟨-, hbuild⟩, hjson, -⟩ := repeated_keys_obey_one_law hdistinct
  obtain ⟨hread, hmembers⟩ := hjson .shortest
  refine ⟨entries, hkeys, hget "a", hread _ (hmembers Json.shortest_lawful hfinite (by decide)), ?_⟩
  rw [← List.append_nil (List.map _ _)]
  refine hbuild nodes htells _ _ _ ?_
  rw [List.map_map]
  exact List.map_id' _

end
end YamlCodec
