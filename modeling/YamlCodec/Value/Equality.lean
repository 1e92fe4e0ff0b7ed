import YamlCodec.Value.Entries

/-!
# Equality of values

Values of different variants differ. Numbers compare numerically, so not-a-number differs from
itself; mappings compare key by key without regard to order.
-/

set_option autoImplicit false

namespace YamlCodec.Value

mutual

def equals : Value → Value → Bool
  | null, null => true
  | bool a, bool b => a == b
  | integer a, integer b => a == b
  | double a, double b => a.equals b
  | string a, string b => a == b
  | array a, array b => itemsEqual a b
  | object a, object b => a.length == b.length && entriesWithin a b
  | _, _ => false

def itemsEqual : List Value → List Value → Bool
  | [], [] => true
  | x :: xs, y :: ys => equals x y && itemsEqual xs ys
  | _, _ => false

/-- Every entry of the first has an equal one under its key in the second. -/
def entriesWithin : List (String × Value) → Entries → Bool
  | [], _ => true
  | (k, v) :: rest, other =>
    (match other.get? k with
      | some w => equals v w
      | none => false) && entriesWithin rest other

end

end YamlCodec.Value
