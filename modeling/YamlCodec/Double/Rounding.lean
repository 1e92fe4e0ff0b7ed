import YamlCodec.Double.Basic

/-!
# Rounding to the nearest binary64 number

A quotient of natural numbers is rounded to the nearest representable magnitude, a half going to
the even neighbour; below the normal range the spacing stays fixed, and past the largest magnitude
the result is an infinity. Decimals and integers are quotients.
-/

set_option autoImplicit false

namespace YamlCodec.Double

/-- The number nearest to a quotient. -/
def ofRatio (negative : Bool) (r : Ratio) : Double :=
  if r.num = 0 then zero negative
  else
    let step := max (r.binaryPlace - 52) (-1074)
    ofCode negative ((step + 1074).toNat * binade + (r.scaled 2 (-step)).round)

/-- The number nearest to an integer. -/
def ofInt (i : Int) : Double := ofRatio (i < 0) ⟨i.natAbs, 1⟩

/-- A decimal that is known to lie past the range before its power of ten is formed: such a power
is at least that power of eight. -/
def pastRange? (negative : Bool) (digits : Nat) : Int → Option Double
  | .ofNat k => if 1024 ≤ digits.log2 + 3 * k then some (.infinity negative) else none
  | .negSucc k => if digits.log2 + 1077 < 3 * (k + 1) then some (zero negative) else none

/-- The number nearest to `digits · 10 ^ exponent`. -/
def ofDecimal (negative : Bool) (digits : Nat) (exponent : Int) : Double :=
  if digits = 0 then zero negative
  else
    match pastRange? negative digits exponent with
    | some x => x
    | none => ofRatio negative (Ratio.scaled ⟨digits, 1⟩ 10 exponent)

end YamlCodec.Double
