import YamlCodec.Proofs.Value.Shape
import YamlCodec.Value.Access

/-!
# Values by their parts

A value is a leaf, or a collection whose items or entry values are its parts. What holds of a collection
because it holds of its parts holds of all values. Where keys are distinct the value of a key is that of
the one entry with the key, wherever the entry stands.
-/

set_option autoImplicit false

namespace YamlCodec

namespace Value

/-- Induction over the parts of collections. -/
@[elab_as_elim]
theorem byParts {P : Value → Prop} (leaf : ∀ v, v.IsLeaf → P v)
    (array : ∀ items : List Value, (∀ v ∈ items, P v) → P (.array items))
    (object : ∀ entries : Entries, (∀ e ∈ entries, P e.2) → P (.object entries))
    (v : Value) : P v :=
  match v with
  | .null | .bool _ | .integer _ | .double _ | .string _ => leaf _ trivial
  | .array items => array items fun v _ => byParts leaf array object v
  | .object entries => object entries fun e _ => byParts leaf array object e.2
termination_by sizeOf v
decreasing_by
  · rename_i h
    have hlt := List.sizeOf_lt_of_mem h
    simp only [Value.array.sizeOf_spec]
    omega
  · rename_i h
    have hlt := List.sizeOf_lt_of_mem h
    obtain ⟨k, v⟩ := e
    simp only [Value.object.sizeOf_spec, Prod.mk.sizeOf_spec] at hlt ⊢
    omega

theorem itemsDistinct_iff {items : List Value} :
    ItemsDistinct items ↔ ∀ v ∈ items, v.DistinctKeys := by
  induction items with
  | nil => simp [ItemsDistinct]
  | cons v rest ih => simp [ItemsDistinct, ih]

theorem entriesDistinct_iff {entries : Entries} :
    EntriesDistinct entries ↔ ∀ e ∈ entries, e.2.DistinctKeys := by
  induction entries with
  | nil => simp [EntriesDistinct]
  | cons e rest ih =>
    obtain ⟨k, v⟩ := e
    simp [EntriesDistinct, ih]

theorem follow?_cons (v : Value) (s : Step) (path : List Step) :
    v.follow? (s :: path) = (v.get? s).bind fun w => w.follow? path :=
  rfl

end Value

namespace Entries

theorem get?_cons (e : String × Value) (entries : Entries) (key : String) :
    Entries.get? (e :: entries) key = if e.1 = key then some e.2 else entries.get? key :=
  rfl

theorem mem_of_get? {entries : Entries} {key : String} {v : Value} (h : entries.get? key = some v) :
    (key, v) ∈ entries := by
  induction entries with
  | nil => cases h
  | cons e entries ih =>
    rw [get?_cons] at h
    split at h
    · rename_i hkey
      obtain rfl := Option.some.inj h
      exact hkey ▸ List.mem_cons_self
    · exact List.mem_cons_of_mem e (ih h)

theorem get?_eq_none_iff {entries : Entries} {key : String} :
    entries.get? key = none ↔ key ∉ entries.keys := by
  induction entries with
  | nil => simp [get?, keys]
  | cons e entries ih =>
    rw [get?_cons]
    split
    · rename_i hkey
      simp [keys, hkey]
    · rename_i hkey
      simpa [keys, Ne.symm hkey] using ih

theorem mem_keys_of_get? {entries : Entries} {key : String} {v : Value}
    (h : entries.get? key = some v) : key ∈ entries.keys := by
  have hkey : (key, v).1 ∈ entries.map Prod.fst := List.mem_map_of_mem (mem_of_get? h)
  exact hkey

theorem get?_eq_some_iff {entries : Entries} (hk : entries.keys.Nodup) {key : String} {v : Value} :
    entries.get? key = some v ↔ (key, v) ∈ entries := by
  refine ⟨mem_of_get?, fun h => ?_⟩
  induction entries with
  | nil => simp at h
  | cons e entries ih =>
    obtain ⟨hnew, hrest⟩ := List.nodup_cons.mp hk
    rw [get?_cons]
    rcases List.mem_cons.mp h with rfl | h
    · rw [if_pos rfl]
    · have hmem : key ∈ Entries.keys entries := List.mem_map_of_mem (f := Prod.fst) h
      rw [if_neg (fun hkey : e.1 = key => hnew (hkey ▸ hmem)), ih hrest h]

end Entries
end YamlCodec
