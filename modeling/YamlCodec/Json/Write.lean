import YamlCodec.Json.Numbers
import YamlCodec.Text.Digit
import YamlCodec.Value.Datum

/-!
# JSON text of values

Compact JSON: no blanks, and null for what JSON has no number for. Control characters are escaped.
-/

set_option autoImplicit false

namespace YamlCodec.Json
open YamlCodec.Text

/-- One character as it stands between the quotes. -/
def escape (c : Char) : List Char :=
  match c with
  | '"' => ['\\', '"']
  | '\\' => ['\\', '\\']
  | '\x08' => ['\\', 'b']
  | '\x0c' => ['\\', 'f']
  | '\n' => ['\\', 'n']
  | '\r' => ['\\', 'r']
  | '\t' => ['\\', 't']
  | _ => if c.toNat < 0x20 then '\\' :: 'u' :: Digit.fixedHex 4 c.toNat else [c]

def writeString (s : String) : List Char := '"' :: (s.toList.flatMap escape ++ ['"'])

section
variable (num : Numbers)

def writeDouble : Double → List Char
  | .finite negative code => num.print negative code
  | _ => ['n', 'u', 'l', 'l']

mutual

def writeDatum : Datum → List Char
  | .unit => ['n', 'u', 'l', 'l']
  | .bool true => ['t', 'r', 'u', 'e']
  | .bool false => ['f', 'a', 'l', 's', 'e']
  | .signed i => Digit.signedNumeral i.toInt
  | .unsigned n => Digit.numeral n.toNat
  | .double d => writeDouble num d
  | .string s => writeString s
  | .sequence items => '[' :: (writeItems true items ++ [']'])
  | .map members => '{' :: (writeMembers true members ++ ['}'])

/-- Items with commas before all but the first. -/
def writeItems (first : Bool) : List Datum → List Char
  | [] => []
  | d :: rest => (if first then [] else [',']) ++ (writeDatum d ++ writeItems false rest)

/-- Members with commas before all but the first. -/
def writeMembers (first : Bool) : List (String × Datum) → List Char
  | [] => []
  | (k, d) :: rest =>
    (if first then [] else [',']) ++
      (writeString k ++ ':' :: (writeDatum d ++ writeMembers false rest))

end

/-- The text of a value. -/
def write (v : Value) : List Char := writeDatum num v.datum

end

end YamlCodec.Json
