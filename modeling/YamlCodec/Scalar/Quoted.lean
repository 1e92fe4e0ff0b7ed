import YamlCodec.Text.Digit

/-!
# Double-quoted text

Quotes and backslashes, control characters, and characters that count as line breaks or as not
printable are written as escapes.
-/

set_option autoImplicit false

namespace YamlCodec.Scalar

/-- The control characters of Unicode. -/
def isControl (c : Char) : Bool :=
  c.toNat < 0x20 || (0x7f ≤ c.toNat && c.toNat ≤ 0x9f)

namespace Quoted
open YamlCodec.Text

/-- A code in capital hexadecimal digits. -/
def capitalHex (width n : Nat) : List Char := (Digit.fixedHex width n).map Char.toUpper

/-- One character as it stands between the quotes. -/
def encodeChar (c : Char) : List Char :=
  match c with
  | '\\' => ['\\', '\\']
  | '"' => ['\\', '"']
  | '\x00' => ['\\', '0']
  | '\x07' => ['\\', 'a']
  | '\x08' => ['\\', 'b']
  | '\t' => ['\\', 't']
  | '\n' => ['\\', 'n']
  | '\x0b' => ['\\', 'v']
  | '\x0c' => ['\\', 'f']
  | '\r' => ['\\', 'r']
  | '\x1b' => ['\\', 'e']
  | '\u0085' => ['\\', 'N']
  | '\u2028' => ['\\', 'L']
  | '\u2029' => ['\\', 'P']
  | _ =>
    if c.toNat = 0xfeff ∨ c.toNat = 0xfffe ∨ c.toNat = 0xffff then
      '\\' :: 'u' :: capitalHex 4 c.toNat
    else if isControl c then '\\' :: 'x' :: capitalHex 2 c.toNat
    else [c]

/-- A text between quotes. -/
def encode (cs : List Char) : List Char := '"' :: (cs.flatMap encodeChar ++ ['"'])

end Quoted
end YamlCodec.Scalar
