import YamlCodec.Value.Entries

/-!
# Building values
-/

set_option autoImplicit false

namespace YamlCodec.Value

/-- The value that stands for nothing given. -/
def default : Value := null

/-- Any integer of at most 32 bits fits. -/
def ofInt32 (i : Int32) : Value := integer i.toInt64

/-- A missing value is null. -/
def ofOption : Option Value → Value
  | some v => v
  | none => null

/-- A mapping of pairs in order; a repeated key keeps its first place and its last value. -/
def ofPairs (pairs : List (String × Value)) : Value := object (Entries.insertAll [] pairs)

end YamlCodec.Value
