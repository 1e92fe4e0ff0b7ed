import YamlCodec.Proofs.Value.Load

/-!
# The size of a value

How many values and keys a value holds, and how many bytes of text. Neither is more than what the tree
that it was decoded from was counted as: every value and every key stands for a node or an alias of its
own, and every string and every key has the text of its scalar.
-/

set_option autoImplicit false

namespace YamlCodec
open Decode

namespace Value

mutual

/-- The number of values that a value is made of, itself included, and of the keys of its mappings. -/
def size : Value → Nat
  | array items => itemSize items + 1
  | object entries => entrySize entries + 1
  | _ => 1

def itemSize : List Value → Nat
  | [] => 0
  | v :: rest => size v + itemSize rest

def entrySize : List (String × Value) → Nat
  | [] => 0
  | (_, v) :: rest => 1 + size v + entrySize rest

end

mutual

/-- The bytes of the strings in a value and of the keys of its mappings. -/
def textBytes : Value → Nat
  | string s => s.utf8ByteSize
  | array items => itemTextBytes items
  | object entries => entryTextBytes entries
  | _ => 0

def itemTextBytes : List Value → Nat
  | [] => 0
  | v :: rest => textBytes v + itemTextBytes rest

def entryTextBytes : List (String × Value) → Nat
  | [] => 0
  | (k, v) :: rest => k.utf8ByteSize + textBytes v + entryTextBytes rest

end

mutual

/-- A value counts as many nodes as its size, none of them an alias, and no fewer events. -/
theorem load_size (v : Value) :
    v.load.nodes = v.size ∧ v.load.aliases = 0 ∧ v.size ≤ v.load.events := by
  match v with
  | null | bool true | bool false | integer _ | double _ | string _ =>
    exact ⟨rfl, rfl, Nat.le_refl 1⟩
  | array items =>
    obtain ⟨hn, ha, he⟩ := itemLoad_size items
    simp only [load, Load.collection, size]
    omega
  | object entries =>
    obtain ⟨hn, ha, he⟩ := entryLoad_size entries
    simp only [load, Load.collection, size]
    omega

theorem itemLoad_size (items : List Value) :
    (itemLoad items).nodes = itemSize items ∧ (itemLoad items).aliases = 0 ∧
      itemSize items ≤ (itemLoad items).events := by
  match items with
  | [] => exact ⟨rfl, rfl, Nat.le_refl 0⟩
  | v :: rest =>
    obtain ⟨hn, ha, he⟩ := load_size v
    obtain ⟨hn', ha', he'⟩ := itemLoad_size rest
    simp only [itemLoad, Load.beside, itemSize]
    omega

theorem entryLoad_size (entries : List (String × Value)) :
    (entryLoad entries).nodes = entrySize entries ∧ (entryLoad entries).aliases = 0 ∧
      entrySize entries ≤ (entryLoad entries).events := by
  match entries with
  | [] => exact ⟨rfl, rfl, Nat.le_refl 0⟩
  | (k, v) :: rest =>
    obtain ⟨hn, ha, he⟩ := load_size v
    obtain ⟨hn', ha', he'⟩ := entryLoad_size rest
    simp only [entryLoad, Load.beside, Load.scalar, entrySize]
    omega

end

/-- An inserted entry adds at most its own text; in the place of another it adds less. -/
theorem insert_textBytes (found : Entries) (key : String) (v : Value) :
    entryTextBytes (found.insert key v) ≤
      entryTextBytes found + (key.utf8ByteSize + v.textBytes) := by
  induction found with
  | nil => simp only [Entries.insert, entryTextBytes]; omega
  | cons e found ih =>
    obtain ⟨k, w⟩ := e
    by_cases hk : k = key
    · rw [Entries.insert, if_pos hk]
      simp only [entryTextBytes]
      omega
    · rw [Entries.insert, if_neg hk]
      simp only [entryTextBytes]
      omega

end Value

/-- The value of a scalar holds no text but that of the scalar. -/
theorem Scalar.Denotes.textBytes_le {text : String} {v : Value} (h : Denotes text v) :
    v.textBytes ≤ text.utf8ByteSize := by
  cases h with
  | itself => exact Nat.le_refl _
  | null | bool _ | integer _ | double _ => exact Nat.zero_le _

namespace Decode

def Part.Kind.isAlias : Part.Kind → Bool
  | .alias => true
  | _ => false

namespace Tree

mutual

theorem load_aliases (t : Tree) : t.load.aliases = t.kinds.countP Part.Kind.isAlias := by
  match t with
  | .scalar text style tag => rfl
  | .alias => rfl
  | .sequence items =>
    rw [load, Load.collection, itemLoad_aliases items, kinds]
    simp [Part.Kind.isAlias]
  | .mapping entries =>
    rw [load, Load.collection, entryLoad_aliases entries, kinds]
    simp [Part.Kind.isAlias]

theorem itemLoad_aliases (items : List Tree) :
    (itemLoad items).aliases = (itemKinds items).countP Part.Kind.isAlias := by
  match items with
  | [] => rfl
  | t :: rest =>
    rw [itemLoad, Load.beside, load_aliases t, itemLoad_aliases rest, itemKinds, List.countP_append]

theorem entryLoad_aliases (entries : List (Tree × Tree)) :
    (entryLoad entries).aliases = (entryKinds entries).countP Part.Kind.isAlias := by
  match entries with
  | [] => rfl
  | (k, t) :: rest =>
    simp only [entryLoad, Load.beside, load_aliases k, load_aliases t, entryLoad_aliases rest,
      entryKinds, List.countP_append]

end

mutual

/-- The text in the value of a tree is text of its scalars. -/
theorem load_textBytes (t : Tree) {v : Value} (h : t.value? = some v) :
    v.textBytes ≤ t.load.bytes := by
  match t with
  | .scalar text style tag =>
    obtain rfl := Option.some.inj h
    exact (Scalar.resolve_denotes text style tag).textBytes_le
  | .alias =>
    obtain rfl := Option.some.inj h
    exact Nat.le_refl 0
  | .sequence items =>
    obtain ⟨vs, hvs, rfl⟩ := Option.map_eq_some_iff.mp h
    exact itemLoad_textBytes items hvs
  | .mapping entries =>
    obtain ⟨es, hes, rfl⟩ := Option.map_eq_some_iff.mp h
    calc Value.entryTextBytes es
        ≤ Value.entryTextBytes [] + (entryLoad entries).bytes := entryLoad_textBytes entries hes
      _ = (entryLoad entries).bytes := Nat.zero_add _

theorem itemLoad_textBytes (items : List Tree) {vs : List Value}
    (h : itemValues? items = some vs) : Value.itemTextBytes vs ≤ (itemLoad items).bytes := by
  match items with
  | [] =>
    obtain rfl := Option.some.inj h
    exact Nat.le_refl 0
  | t :: rest =>
    obtain ⟨v, hv, h⟩ := Option.bind_eq_some_iff.mp h
    obtain ⟨vs, hvs, rfl⟩ := Option.map_eq_some_iff.mp h
    exact Nat.add_le_add (load_textBytes t hv) (itemLoad_textBytes rest hvs)

theorem entryLoad_textBytes (entries : List (Tree × Tree)) {found es : Entries}
    (h : insertAll? found entries = some es) :
    Value.entryTextBytes es ≤ Value.entryTextBytes found + (entryLoad entries).bytes := by
  match entries with
  | [] =>
    obtain rfl := Option.some.inj h
    exact Nat.le_refl _
  | (k, t) :: rest =>
    obtain ⟨key, hkey, h⟩ := Option.bind_eq_some_iff.mp h
    obtain ⟨v, hv, h⟩ := Option.bind_eq_some_iff.mp h
    have hk : key.utf8ByteSize ≤ k.load.bytes := by
      cases k with
      | scalar text _ _ =>
        obtain rfl := Option.some.inj hkey
        exact Nat.le_refl _
      | _ => simp [key?] at hkey
    have ht := load_textBytes t hv
    have hinsert := Value.insert_textBytes found key v
    have hrest := entryLoad_textBytes rest h
    simp only [entryLoad, Load.beside]
    omega

end

/-- The values and keys of the value of a tree are at most its nodes and aliases, and its events. -/
theorem load_size (t : Tree) {v : Value} (h : t.value? = some v) :
    v.size ≤ t.load.nodes + t.load.aliases ∧ v.size ≤ t.load.events := by
  have hcovers := t.load_covers h
  obtain ⟨hn, ha, he⟩ := v.load_size
  constructor
  · calc v.size = v.load.nodes + v.load.aliases := by omega
      _ ≤ t.load.nodes + t.load.aliases := hcovers.nodes
  · exact Nat.le_trans he hcovers.events

end Tree
end Decode
end YamlCodec
