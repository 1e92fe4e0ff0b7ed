import Mathlib
import YamlCodec.Proofs.Decode.Result
import YamlCodec.Proofs.Value.Parts
import YamlCodec.Value.Construct

/-!
# Pairs inserted one after the other

A mapping built of pairs has their keys in the order in which they came first, each with the value that
came last. Keys stay distinct, so pairs whose keys are distinct are the entries themselves.
-/

set_option autoImplicit false

namespace YamlCodec.Entries

theorem insertAll_concat (entries : Entries) (pairs : List (String × Value)) (p : String × Value) :
    entries.insertAll (pairs ++ [p]) = (entries.insertAll pairs).insert p.1 p.2 :=
  List.foldl_append

theorem keys_insert (entries : Entries) (key : String) (v : Value) :
    (entries.insert key v).keys =
      if key ∈ entries.keys then entries.keys else entries.keys ++ [key] := by
  split
  · rename_i hkey
    induction entries with
    | nil => simp [keys] at hkey
    | cons e entries ih =>
      obtain ⟨k, w⟩ := e
      rw [insert]
      split
      · rfl
      · rename_i hne
        have hrest : key ∈ Entries.keys entries := (List.mem_cons.mp hkey).resolve_left (Ne.symm hne)
        exact congrArg (List.cons k) (ih hrest)
  · rename_i hkey
    rw [insert_new hkey]
    simp [keys]

theorem get?_insert (entries : Entries) (key other : String) (v : Value) :
    (entries.insert key v).get? other = if other = key then some v else entries.get? other := by
  induction entries with
  | nil => simp [insert, get?, eq_comm]
  | cons e entries ih =>
    obtain ⟨k, w⟩ := e
    rw [insert]
    split
    · rename_i hk
      subst hk
      rw [get?_cons, get?_cons]
      by_cases h : other = k
      · simp [h]
      · simp [h, Ne.symm h]
    · rename_i hk
      rw [get?_cons, get?_cons, ih]
      by_cases h : k = other
      · simp [h, h ▸ hk]
      · simp [h]

/-! ## What a mapping built of pairs holds -/

/-- Keys stand where they came first. -/
theorem keys_insertAll (pairs : List (String × Value)) :
    (insertAll [] pairs).keys = (pairs.map Prod.fst).eraseDups := by
  induction pairs using List.reverseRecOn with
  | nil => rfl
  | append_singleton pairs p ih =>
    rw [insertAll_concat, keys_insert, ih, List.map_append, List.map_singleton, List.eraseDups_append]
    split
    · rename_i hkey
      rw [List.mem_eraseDups] at hkey
      simp [List.removeAll, hkey]
    · rename_i hkey
      rw [List.mem_eraseDups] at hkey
      have hnew : [p.1].removeAll (pairs.map Prod.fst) = [p.1] := by simp [List.removeAll, hkey]
      rw [hnew]
      rfl

/-- Keys have the values that came last. -/
theorem get?_insertAll (pairs : List (String × Value)) (key : String) :
    (insertAll [] pairs).get? key = pairs.reverse.lookup key := by
  induction pairs using List.reverseRecOn with
  | nil => rfl
  | append_singleton pairs p ih =>
    rw [insertAll_concat, get?_insert, ih, List.reverse_append, List.reverse_singleton,
      List.singleton_append]
    obtain ⟨k, v⟩ := p
    rw [List.lookup_cons]
    by_cases h : key = k
    · simp [h]
    · rw [if_neg h, beq_eq_false_iff_ne.mpr h]

theorem insertAll_keys_nodup {found : Entries} (h : found.keys.Nodup)
    (pairs : List (String × Value)) : (found.insertAll pairs).keys.Nodup := by
  induction pairs generalizing found with
  | nil => exact h
  | cons p pairs ih => exact ih (insert_keys_nodup h p.1 p.2)

/-- New and distinct keys are appended. -/
theorem insertAll_new (found : Entries) {pairs : Entries} (h : (found.keys ++ pairs.keys).Nodup) :
    found.insertAll pairs = found ++ pairs := by
  induction pairs generalizing found with
  | nil => exact (List.append_nil _).symm
  | cons p pairs ih =>
    have hnew : p.1 ∉ found.keys := by
      intro hm
      exact (List.nodup_append.mp h).2.2 p.1 hm p.1 List.mem_cons_self rfl
    have hinsert : found.insertAll (p :: pairs) = (found.insert p.1 p.2).insertAll pairs := rfl
    rw [hinsert, insert_new hnew, ih]
    · simp
    · simpa [keys] using h

end YamlCodec.Entries

namespace YamlCodec.Value

theorem insertAll_entriesDistinct {found : Entries} (h : EntriesDistinct found)
    {pairs : List (String × Value)} (hp : ∀ p ∈ pairs, p.2.DistinctKeys) :
    EntriesDistinct (found.insertAll pairs) := by
  induction pairs generalizing found with
  | nil => exact h
  | cons p pairs ih =>
    obtain ⟨hfirst, hrest⟩ := List.forall_mem_cons.mp hp
    exact ih (insert_distinct h p.1 hfirst) hrest

/-- A mapping built of pairs has no key twice, nor have the values of the pairs. -/
theorem ofPairs_distinctKeys {pairs : List (String × Value)} (h : ∀ p ∈ pairs, p.2.DistinctKeys) :
    (ofPairs pairs).DistinctKeys :=
  ⟨Entries.insertAll_keys_nodup (show (Entries.keys []).Nodup from List.nodup_nil) pairs,
    insertAll_entriesDistinct (show EntriesDistinct [] from trivial) h⟩

end YamlCodec.Value
