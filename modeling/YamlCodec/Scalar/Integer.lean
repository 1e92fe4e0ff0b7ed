import YamlCodec.Text.Digit
import YamlCodec.Text.Sign

/-!
# Integer literals

A literal is hexadecimal after `0x`, octal after `0o` or a superfluous `0`, and decimal otherwise.
Its digits are added up in 64 bits; a literal that does not fit a signed 64-bit integer is refused.
-/

set_option autoImplicit false

namespace YamlCodec.Scalar.Integer
open YamlCodec.Text

/-- The first number that 64 bits do not hold. -/
def wordLimit : Nat := 0x10000000000000000

/-- The first positive number that a signed 64-bit integer does not hold. -/
def signedLimit : Nat := 0x8000000000000000

/-- Adds digits to a magnitude for as long as it fits 64 bits. -/
def accumulate? (base : Nat) : Nat → List Char → Option Nat
  | n, [] => some n
  | n, c :: cs =>
    match Digit.value? base c with
    | some d => if base * n + d < wordLimit then accumulate? base (base * n + d) cs else none
    | none => none

/-- The magnitude of at least one digit. -/
def magnitude? (base : Nat) : List Char → Option Nat
  | [] => none
  | cs => accumulate? base 0 cs

/-- A magnitude with a sign, if a signed 64-bit integer holds it. -/
def signed? (negative : Bool) (n : Nat) : Option Int64 :=
  if negative then
    if n ≤ signedLimit then some (Int64.ofInt (-(n : Int))) else none
  else
    if n < signedLimit then some (Int64.ofInt n) else none

/-- The base of an unsigned literal and its digits. -/
def base : List Char → Nat × List Char
  | '0' :: 'x' :: cs => (16, cs)
  | '0' :: 'X' :: cs => (16, cs)
  | '0' :: c :: cs => (8, c :: cs)
  | cs => (10, cs)

/-- An optional sign, then digits in the base that their beginning tells. -/
def read? (cs : List Char) : Option Int64 :=
  let signed := Sign.split cs
  let literal := base signed.2
  (magnitude? literal.1 literal.2).bind (signed? signed.1)

/-- Octal digits after `0o`. -/
def octal? : List Char → Option Int64
  | '0' :: 'o' :: cs => (magnitude? 8 cs).bind (signed? false)
  | '0' :: 'O' :: cs => (magnitude? 8 cs).bind (signed? false)
  | _ => none

end YamlCodec.Scalar.Integer
