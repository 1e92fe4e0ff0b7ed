import YamlCodec.Double.Rounding
import YamlCodec.Value.Construct

/-!
# Values as data of a format

A value tells a format what it is, and a value is built of what a format tells. The two differ in their
integers: a value tells every integer with a sign, while a format may tell one without, which need not fit.
-/

set_option autoImplicit false

namespace YamlCodec

/-- What is told to a format, or by it. -/
inductive Datum where
  | unit
  | bool (b : Bool)
  | signed (i : Int64)
  | unsigned (n : UInt64)
  | double (d : Double)
  | string (s : String)
  | sequence (items : List Datum)
  /-- Members in the order in which they come, a key being repeated as often as it comes. -/
  | map (members : List (String × Datum))

namespace Value

mutual

/-- What a value tells a format. -/
def datum : Value → Datum
  | null => .unit
  | bool b => .bool b
  | integer i => .signed i
  | double d => .double d
  | string s => .string s
  | array items => .sequence (itemData items)
  | object entries => .map (entryData entries)

def itemData : List Value → List Datum
  | [] => []
  | v :: rest => datum v :: itemData rest

def entryData : List (String × Value) → List (String × Datum)
  | [] => []
  | (k, v) :: rest => (k, datum v) :: entryData rest

end

/-- An integer without a sign, which is the nearest double if it is past the range of integers. -/
def ofUnsigned (n : UInt64) : Value :=
  if n.toNat < 0x8000000000000000 then integer n.toInt64 else double (Double.ofInt n.toNat)

end Value

namespace Datum

mutual

/-- The value that is built of what a format tells. -/
def value : Datum → Value
  | unit => .null
  | bool b => .bool b
  | signed i => .integer i
  | unsigned n => .ofUnsigned n
  | double d => .double d
  | string s => .string s
  | sequence items => .array (itemValues items)
  | map members => .object (insertMembers [] members)

def itemValues : List Datum → List Value
  | [] => []
  | d :: rest => value d :: itemValues rest

/-- Members are inserted as they come. -/
def insertMembers (found : Entries) : List (String × Datum) → Entries
  | [] => found
  | (k, d) :: rest => insertMembers (found.insert k (value d)) rest

end

end Datum
end YamlCodec
