import YamlCodec.Value.Entries

/-!
# The shape of values

How deep collections nest, that no mapping has a key twice, and what is left of a value when its
empty collections are blank.
-/

set_option autoImplicit false

namespace YamlCodec.Value

/-- Neither a list nor a mapping. -/
def IsLeaf : Value → Prop
  | array _ => False
  | object _ => False
  | _ => True

mutual

/-- How deep the collections of a value nest. -/
def depth : Value → Nat
  | array items => itemDepth items + 1
  | object entries => entryDepth entries + 1
  | _ => 0

def itemDepth : List Value → Nat
  | [] => 0
  | v :: rest => max (depth v) (itemDepth rest)

def entryDepth : List (String × Value) → Nat
  | [] => 0
  | (_, v) :: rest => max (depth v) (entryDepth rest)

end

mutual

/-- The keys of every mapping are distinct, as insertion keeps them. -/
def DistinctKeys : Value → Prop
  | array items => ItemsDistinct items
  | object entries => (Entries.keys entries).Nodup ∧ EntriesDistinct entries
  | _ => True

def ItemsDistinct : List Value → Prop
  | [] => True
  | v :: rest => DistinctKeys v ∧ ItemsDistinct rest

def EntriesDistinct : List (String × Value) → Prop
  | [] => True
  | (_, v) :: rest => DistinctKeys v ∧ EntriesDistinct rest

end

mutual

/-- The value with null for every empty collection. -/
def blanked : Value → Value
  | array [] => null
  | array (v :: rest) => array (itemsBlanked (v :: rest))
  | object [] => null
  | object (e :: rest) => object (entriesBlanked (e :: rest))
  | v => v

def itemsBlanked : List Value → List Value
  | [] => []
  | v :: rest => blanked v :: itemsBlanked rest

def entriesBlanked : List (String × Value) → List (String × Value)
  | [] => []
  | (k, v) :: rest => (k, blanked v) :: entriesBlanked rest

end

end YamlCodec.Value

namespace YamlCodec.Entries

theorem insert_new {entries : Entries} {key : String} (h : key ∉ entries.keys) (value : Value) :
    entries.insert key value = entries ++ [(key, value)] := by
  induction entries with
  | nil => rfl
  | cons e entries ih =>
    obtain ⟨k, v⟩ := e
    simp only [keys, List.map_cons, List.mem_cons, not_or] at h
    rw [insert, if_neg (Ne.symm h.1), ih h.2, List.cons_append]

end YamlCodec.Entries
