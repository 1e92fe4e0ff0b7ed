import YamlCodec.Value.Entries
import YamlCodec.Double.Rounding

/-!
# Access to the parts of a value
-/

set_option autoImplicit false

namespace YamlCodec.Value

def isNull : Value → Bool
  | null => true
  | _ => false

def asBool? : Value → Option Bool
  | bool b => some b
  | _ => none

def asInteger? : Value → Option Int64
  | integer i => some i
  | _ => none

/-- A number as binary64, integers rounded to the nearest. -/
def asDouble? : Value → Option Double
  | double d => some d
  | integer i => some (Double.ofInt i.toInt)
  | _ => none

def asString? : Value → Option String
  | string s => some s
  | _ => none

def asArray? : Value → Option (List Value)
  | array items => some items
  | _ => none

def asObject? : Value → Option Entries
  | object entries => some entries
  | _ => none

/-- One step from a value to a part of it. -/
inductive Step where
  | key (k : String)
  | index (i : Nat)

/-- The part under a key of a mapping or at a position of a list. -/
def get? : Value → Step → Option Value
  | object entries, .key k => Entries.get? entries k
  | array items, .index i => items[i]?
  | _, _ => none

/-- The part, or null where there is none. -/
def part (v : Value) (s : Step) : Value := (v.get? s).getD null

/-- Follows a path that has to exist. -/
def follow? (v : Value) (path : List Step) : Option Value :=
  path.foldlM get? v

/-- Follows a path, missing parts counting as null. -/
def follow (v : Value) (path : List Step) : Value :=
  path.foldl part v

end YamlCodec.Value
