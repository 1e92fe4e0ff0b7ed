/-!
# Digits and numerals

Digit values in bases up to sixteen, the value of a run of digits, and the decimal numeral of a
natural number.
-/

set_option autoImplicit false

namespace YamlCodec.Text.Digit

/-- Value of an ASCII digit, letters `a` to `f` of either case counting from ten. -/
def hexValue? (c : Char) : Option Nat :=
  if '0' ≤ c ∧ c ≤ '9' then some (c.toNat - 48)
  else if 'a' ≤ c ∧ c ≤ 'f' then some (c.toNat - 87)
  else if 'A' ≤ c ∧ c ≤ 'F' then some (c.toNat - 55)
  else none

/-- Value of a digit of the base; a digit of a larger base has none. -/
def value? (base : Nat) (c : Char) : Option Nat :=
  match hexValue? c with
  | some d => if d < base then some d else none
  | none => none

/-- The number written by `n` followed by a run of digits. -/
def run? (base : Nat) : Nat → List Char → Option Nat
  | n, [] => some n
  | n, c :: cs =>
    match value? base c with
    | some d => run? base (base * n + d) cs
    | none => none

/-- The number written by a run of at least one digit. -/
def number? (base : Nat) : List Char → Option Nat
  | [] => none
  | cs => run? base 0 cs

/-- A run of digits as far as it goes, and the text after it. -/
def span (base : Nat) : List Char → List Char × List Char
  | [] => ([], [])
  | c :: cs =>
    if (value? base c).isSome then
      let rest := span base cs
      (c :: rest.1, rest.2)
    else ([], c :: cs)

/-- The digit of a value below sixteen, in lower case. -/
def ofValue (d : Nat) : Char :=
  if d < 10 then Char.ofNat (48 + d) else Char.ofNat (87 + d)

/-- The decimal numeral of a number, without leading zeros. -/
def numeral (n : Nat) : List Char :=
  if n < 10 then [ofValue n] else numeral (n / 10) ++ [ofValue (n % 10)]
termination_by n
decreasing_by omega

/-- The decimal numeral of an integer, with a sign when it is negative. -/
def signedNumeral (i : Int) : List Char :=
  if i < 0 then '-' :: numeral i.natAbs else numeral i.natAbs

/-- The lowest `width` hexadecimal digits of a number. -/
def fixedHex : Nat → Nat → List Char
  | 0, _ => []
  | width + 1, n => fixedHex width (n / 16) ++ [ofValue (n % 16)]

end YamlCodec.Text.Digit
