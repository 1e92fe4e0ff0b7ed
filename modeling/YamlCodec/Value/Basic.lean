import YamlCodec.Double.Basic

/-!
# Dynamic values

What a YAML node denotes: null, a boolean, a 64-bit integer, a binary64 number, a string, a list of
values, or a mapping whose string keys keep the order in which they were first inserted.
-/

set_option autoImplicit false

namespace YamlCodec

inductive Value where
  | null
  | bool (b : Bool)
  | integer (i : Int64)
  | double (d : Double)
  | string (s : String)
  | array (items : List Value)
  | object (entries : List (String × Value))

/-- The entries of a mapping in order. -/
abbrev Entries := List (String × Value)

namespace Value

/-- Name of the variant. -/
def typeName : Value → String
  | null => "null"
  | bool _ => "boolean"
  | integer _ => "integer"
  | double _ => "double"
  | string _ => "string"
  | array _ => "array"
  | object _ => "object"

end Value
end YamlCodec
