import YamlCodec.Text.Digit
import YamlCodec.Text.Sign
import YamlCodec.Double.Rounding

/-!
# Hexadecimal floating-point literals

Digits with an optional fraction, and an optional power of two after `p`. The digits are added up
in binary64, and the sum is multiplied by a power of two that is itself a binary64 number.
-/

set_option autoImplicit false

namespace YamlCodec.Scalar.HexFloat
open YamlCodec.Text

/-- Sixteen times a number plus a digit, rounded. -/
def push (x : Double) (digit : Nat) : Double :=
  match x with
  | .finite _ code =>
    let r := Double.ratio code.val
    Double.ofRatio false ⟨16 * r.num + digit * r.den, r.den⟩
  | other => other

/-- The number that a run of hexadecimal digits adds up to. -/
def digits? : Double → List Char → Option Double
  | x, [] => some x
  | x, c :: cs =>
    match Digit.value? 16 c with
    | some d => digits? (push x d) cs
    | none => none

/-- A number times a power of two; a power past the range is an infinity or a zero. -/
def scaleBy (x : Double) (power : Int) : Double :=
  match x with
  | .nan => .nan
  | .infinity negative => if power < -1023 then .nan else .infinity negative
  | .finite negative code =>
    if 1023 < power then if code.val = 0 then .nan else .infinity negative
    else if power < -1023 then Double.zero negative
    else Double.ofRatio negative ((Double.ratio code.val).scaled 2 power)

/-- The text before the first separator, and what follows it if there is one. -/
def cutAt (separator : Char → Bool) : List Char → List Char × Option (List Char)
  | [] => ([], none)
  | c :: cs =>
    if separator c then ([], some cs)
    else
      let rest := cutAt separator cs
      (c :: rest.1, rest.2)

/-- An optional sign and decimal digits; a number past 32 bits counts as half their range. -/
def power? : Option (List Char) → Option Int
  | none => some 0
  | some cs =>
    let signed := Sign.split cs
    match Digit.number? 10 signed.2 with
    | none => none
    | some n =>
      let n : Int := if n < 0x80000000 then n else 0x3fffffff
      some (if signed.1 then -n else n)

/-- The literal after its `0x`. A fraction of `2 ^ 29` digits or more is refused. -/
def read? (cs : List Char) : Option Double :=
  let parts := cutAt (fun c => c == 'p' || c == 'P') cs
  let mantissa := cutAt (· == '.') parts.1
  let fraction := mantissa.2.getD []
  if mantissa.1.isEmpty && fraction.isEmpty then none
  else if 0x20000000 ≤ fraction.length then none
  else
    match digits? (Double.zero false) (mantissa.1 ++ fraction), power? parts.2 with
    | some x, some power => some (scaleBy x (power - 4 * fraction.length))
    | _, _ => none

end YamlCodec.Scalar.HexFloat
