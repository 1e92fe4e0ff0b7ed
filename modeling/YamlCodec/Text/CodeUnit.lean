import YamlCodec.Text.Digit

/-!
# Characters written by their codes

A code is a fixed number of hexadecimal digits. Four of them are a unit of UTF-16: a character of
its own, or the first half of a pair whose second half follows as `\u` and four digits.
-/

set_option autoImplicit false

namespace YamlCodec.Text.CodeUnit

/-- The character of a code. -/
def char? (code : Nat) : Option Char :=
  if code.isValidChar then some (Char.ofNat code) else none

/-- The number that a fixed count of hexadecimal digits writes. -/
def code? (width : Nat) (cs : List Char) : Option Nat :=
  let digits := cs.take width
  if digits.length = width then Digit.number? 16 digits else none

def isHigh (n : Nat) : Bool := 0xd800 ≤ n && n < 0xdc00

def isLow (n : Nat) : Bool := 0xdc00 ≤ n && n < 0xe000

/-- The second half of a pair. -/
def low? : List Char → Option Nat
  | '\\' :: 'u' :: cs => (code? 4 cs).filter isLow
  | _ => none

/-- The character of one unit or of a pair, and the number of characters it takes. -/
def read? (cs : List Char) : Option (Char × Nat) := do
  let n ← code? 4 cs
  if isHigh n then
    let low ← low? (cs.drop 4)
    return (← char? (0x10000 + (n - 0xd800) * 0x400 + (low - 0xdc00)), 10)
  else return (← char? n, 4)

end YamlCodec.Text.CodeUnit
