import YamlCodec.Proofs.Decode.Tree
import YamlCodec.Proofs.Value.Shape

/-!
# Values of trees

What holds of the value of any tree: a scalar is a leaf, and since entries are inserted one after the
other no mapping has a key twice.
-/

set_option autoImplicit false

namespace YamlCodec

namespace Scalar

/-- What a scalar of this text may denote: the text itself, or something that holds no text. -/
inductive Denotes (text : String) : Value → Prop where
  | null : Denotes text .null
  | bool (b : Bool) : Denotes text (.bool b)
  | integer (i : Int64) : Denotes text (.integer i)
  | double (d : Double) : Denotes text (.double d)
  | itself : Denotes text (.string text)

theorem Denotes.isLeaf {text : String} {v : Value} (h : Denotes text v) : v.IsLeaf := by
  cases h <;> trivial

theorem infer_denotes (text : String) : Denotes text (infer text) := by
  rw [infer]
  cases h : inferred? text.toList with
  | none => exact .itself
  | some v =>
    unfold inferred? at h
    repeat' split at h
    all_goals first
      | exact Option.some.inj h ▸ .null
      | exact Option.some.inj h ▸ .bool _
      | exact Option.some.inj h ▸ .double _
      | exact Option.some.inj h ▸ .integer _
      | obtain ⟨d, _, rfl⟩ := Option.map_eq_some_iff.mp h
        exact .double d

theorem CoreTag.value?_denotes {tag : CoreTag} {text : String} {v : Value}
    (h : tag.value? text = some v) : Denotes text v := by
  cases tag with
  | null => exact Option.some.inj h ▸ .null
  | bool => exact Option.some.inj h ▸ .bool _
  | str => exact Option.some.inj h ▸ .itself
  | int =>
    obtain ⟨i, _, rfl⟩ := Option.map_eq_some_iff.mp h
    exact .integer i
  | float =>
    obtain ⟨d, _, rfl⟩ := Option.map_eq_some_iff.mp h
    exact .double d

theorem resolve_denotes (text : String) (style : Style) (tag : Option String) :
    Denotes text (resolve text style tag) := by
  rw [resolve]
  split
  · rename_i v h
    obtain ⟨t, _, hv⟩ := Option.bind_eq_some_iff.mp h
    exact CoreTag.value?_denotes hv
  · split
    · exact .itself
    · exact infer_denotes text

end Scalar

theorem Entries.mem_keys_insert {found : Entries} {k key : String} {v : Value}
    (h : k ∈ (found.insert key v).keys) : k ∈ found.keys ∨ k = key := by
  induction found with
  | nil => exact .inr (List.mem_singleton.mp h)
  | cons e found ih =>
    obtain ⟨first, w⟩ := e
    rw [insert] at h
    split at h
    · exact .inl h
    · rcases List.mem_cons.mp h with rfl | h
      · exact .inl List.mem_cons_self
      · exact (ih h).imp_left (List.mem_cons_of_mem _)

theorem Entries.insert_keys_nodup {found : Entries} (h : found.keys.Nodup) (key : String)
    (v : Value) : (found.insert key v).keys.Nodup := by
  induction found with
  | nil => exact List.nodup_cons.mpr ⟨List.not_mem_nil, List.nodup_nil⟩
  | cons e found ih =>
    obtain ⟨first, w⟩ := e
    rw [insert]
    split
    · exact h
    · rename_i hne
      obtain ⟨hfirst, hrest⟩ := List.nodup_cons.mp h
      refine List.nodup_cons.mpr ⟨fun hmem => ?_, ih hrest⟩
      exact (mem_keys_insert hmem).elim hfirst hne

namespace Value

theorem IsLeaf.distinctKeys {v : Value} (h : v.IsLeaf) : v.DistinctKeys := by
  cases v with
  | array _ | object _ => exact h.elim
  | _ => trivial

theorem insert_distinct {found : Entries} (h : EntriesDistinct found) (key : String) {v : Value}
    (hv : v.DistinctKeys) : EntriesDistinct (found.insert key v) := by
  induction found with
  | nil => exact ⟨hv, trivial⟩
  | cons e found ih =>
    obtain ⟨first, w⟩ := e
    rw [Entries.insert]
    split
    · exact ⟨hv, h.2⟩
    · exact ⟨h.1, ih h.2⟩

end Value

namespace Decode.Tree

mutual

theorem value_distinct (t : Tree) {v : Value} (h : t.value? = some v) : v.DistinctKeys := by
  match t with
  | .scalar text style tag =>
    obtain rfl := Option.some.inj h
    exact (Scalar.resolve_denotes text style tag).isLeaf.distinctKeys
  | .alias =>
    obtain rfl := Option.some.inj h
    trivial
  | .sequence items =>
    obtain ⟨vs, hvs, rfl⟩ := Option.map_eq_some_iff.mp h
    exact itemValues_distinct items hvs
  | .mapping entries =>
    obtain ⟨es, hes, rfl⟩ := Option.map_eq_some_iff.mp h
    exact insertAll_distinct entries [] List.nodup_nil trivial hes

theorem itemValues_distinct (items : List Tree) {vs : List Value}
    (h : itemValues? items = some vs) : Value.ItemsDistinct vs := by
  match items with
  | [] =>
    obtain rfl := Option.some.inj h
    trivial
  | t :: rest =>
    obtain ⟨v, hv, h⟩ := Option.bind_eq_some_iff.mp h
    obtain ⟨vs, hvs, rfl⟩ := Option.map_eq_some_iff.mp h
    exact ⟨value_distinct t hv, itemValues_distinct rest hvs⟩

theorem insertAll_distinct (entries : List (Tree × Tree)) (found : Entries) {es : Entries}
    (hkeys : found.keys.Nodup) (hfound : Value.EntriesDistinct found)
    (h : insertAll? found entries = some es) :
    es.keys.Nodup ∧ Value.EntriesDistinct es := by
  match entries with
  | [] =>
    obtain rfl := Option.some.inj h
    exact ⟨hkeys, hfound⟩
  | (k, t) :: rest =>
    obtain ⟨key, _, h⟩ := Option.bind_eq_some_iff.mp h
    obtain ⟨v, hv, h⟩ := Option.bind_eq_some_iff.mp h
    exact insertAll_distinct rest (found.insert key v) (Entries.insert_keys_nodup hkeys key v)
      (Value.insert_distinct hfound key (value_distinct t hv)) h

end

end Decode.Tree
end YamlCodec
