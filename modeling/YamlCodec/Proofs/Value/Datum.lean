import YamlCodec.Proofs.Value.Insertion
import YamlCodec.Proofs.Value.Nulled
import YamlCodec.Value.Datum

/-!
# Values built of data

A value that is built of data has no key twice in any mapping, since members are inserted one after the
other. A format that has no number for some doubles and tells no sign of an integer that needs none tells
back data of which the value is built again, but for those doubles.
-/

set_option autoImplicit false

namespace YamlCodec

namespace Datum

mutual

/-- How deep the containers of data nest. -/
def depth : Datum → Nat
  | sequence items => itemDepth items + 1
  | map members => memberDepth members + 1
  | _ => 0

def itemDepth : List Datum → Nat
  | [] => 0
  | d :: rest => max (depth d) (itemDepth rest)

def memberDepth : List (String × Datum) → Nat
  | [] => 0
  | (_, d) :: rest => max (depth d) (memberDepth rest)

end

/-- The values of members, each with its key. -/
def pairs (members : List (String × Datum)) : List (String × Value) :=
  members.map fun m => (m.1, m.2.value)

theorem insertMembers_eq (found : Entries) (members : List (String × Datum)) :
    insertMembers found members = found.insertAll (pairs members) := by
  induction members generalizing found with
  | nil => rfl
  | cons m members ih => exact ih (found.insert m.1 m.2.value)

/-- A mapping is built of its members as of any pairs. -/
theorem value_map (members : List (String × Datum)) : (map members).value = .ofPairs (pairs members) :=
  congrArg Value.object (insertMembers_eq [] members)

mutual

/-- No mapping of what is built has a key twice. -/
theorem value_distinctKeys (d : Datum) : d.value.DistinctKeys := by
  match d with
  | sequence items => exact itemValues_distinct items
  | map members =>
    rw [value_map]
    exact Value.ofPairs_distinctKeys (pairs_distinct members)
  | unsigned n =>
    rw [value, Value.ofUnsigned]
    split <;> trivial
  | unit | bool _ | signed _ | double _ | string _ => trivial

theorem itemValues_distinct (items : List Datum) : Value.ItemsDistinct (itemValues items) := by
  match items with
  | [] => trivial
  | d :: rest => exact ⟨value_distinctKeys d, itemValues_distinct rest⟩

theorem pairs_distinct (members : List (String × Datum)) : ∀ p ∈ pairs members, p.2.DistinctKeys := by
  match members with
  | [] => exact nofun
  | (_, d) :: rest => exact List.forall_mem_cons.mpr ⟨value_distinctKeys d, pairs_distinct rest⟩

end

/-! ## Told back -/

/-- An integer without a sign unless it is negative. -/
def ofSigned (i : Int64) : Datum := if i.toInt < 0 then signed i else unsigned i.toUInt64

/-- The double if it is finite, and nothing otherwise. -/
def ofFinite : Double → Datum
  | .finite negative code => double (.finite negative code)
  | _ => unit

mutual

/-- What comes back of data: integers that are not negative without a sign, and nothing for doubles that
are not finite. -/
def back : Datum → Datum
  | signed i => ofSigned i
  | double d => ofFinite d
  | sequence items => sequence (itemsBack items)
  | map members => map (membersBack members)
  | d => d

def itemsBack : List Datum → List Datum
  | [] => []
  | d :: rest => back d :: itemsBack rest

def membersBack : List (String × Datum) → List (String × Datum)
  | [] => []
  | (k, d) :: rest => (k, back d) :: membersBack rest

end

/-- Without its sign an integer that is not negative is the same number. -/
theorem toNat_toUInt64 {i : Int64} (h : ¬ i.toInt < 0) : (i.toUInt64.toNat : Int) = i.toInt := by
  have hbits : i.toInt = i.toBitVec.toInt := rfl
  have hnat : i.toUInt64.toNat = i.toBitVec.toNat := rfl
  rw [hbits, BitVec.toInt_eq_toNat_cond] at h ⊢
  split at h
  · rw [if_pos ‹_›, hnat]
  · have hless := i.toBitVec.isLt
    omega

theorem value_ofSigned (i : Int64) : (ofSigned i).value = .integer i := by
  rw [ofSigned]
  split
  · rfl
  · rename_i hsign
    have hnat := toNat_toUInt64 hsign
    have hu : i.toInt < 2 ^ 63 := i.toInt_lt
    have hless : i.toUInt64.toNat < 0x8000000000000000 := by omega
    rw [value, Value.ofUnsigned, if_pos hless, Int64.toInt64_toUInt64]

theorem value_ofFinite (d : Double) : (ofFinite d).value = .ofFinite d := by
  cases d <;> rfl

end Datum

namespace Value

mutual

theorem depth_datum (v : Value) : v.datum.depth = v.depth := by
  match v with
  | array items => exact congrArg (· + 1) (itemDepth_data items)
  | object entries => exact congrArg (· + 1) (memberDepth_data entries)
  | null | bool _ | integer _ | double _ | string _ => rfl

theorem itemDepth_data (items : List Value) : Datum.itemDepth (itemData items) = itemDepth items := by
  match items with
  | [] => rfl
  | v :: rest => exact congrArg₂ max (depth_datum v) (itemDepth_data rest)

theorem memberDepth_data (entries : Entries) :
    Datum.memberDepth (entryData entries) = entryDepth entries := by
  match entries with
  | [] => rfl
  | (_, v) :: rest => exact congrArg₂ max (depth_datum v) (memberDepth_data rest)

end

mutual

/-- Of what comes back the value is built again, with null for doubles that are not finite. -/
theorem value_back (v : Value) (hv : v.DistinctKeys) : v.datum.back.value = v.nulled := by
  match v with
  | array items => exact congrArg array (itemValues_back items hv)
  | object entries =>
    have hpairs := pairs_back entries hv.2
    have hnew : (Entries.keys [] ++ Entries.keys (entriesNulled entries)).Nodup := by
      rw [keys_entriesNulled]
      exact hv.1
    rw [datum, Datum.back, Datum.value_map, hpairs, ofPairs, Entries.insertAll_new [] hnew]
    rfl
  | integer i => exact Datum.value_ofSigned i
  | double d => exact Datum.value_ofFinite d
  | null | bool _ | string _ => rfl

theorem itemValues_back (items : List Value) (hv : ItemsDistinct items) :
    Datum.itemValues (Datum.itemsBack (itemData items)) = itemsNulled items := by
  match items with
  | [] => rfl
  | v :: rest => exact congrArg₂ List.cons (value_back v hv.1) (itemValues_back rest hv.2)

theorem pairs_back (entries : Entries) (hv : EntriesDistinct entries) :
    Datum.pairs (Datum.membersBack (entryData entries)) = entriesNulled entries := by
  match entries with
  | [] => rfl
  | (k, v) :: rest =>
    exact congrArg₂ List.cons (congrArg (k, ·) (value_back v hv.1)) (pairs_back rest hv.2)

end

end Value
end YamlCodec
