import YamlCodec.Double.Rounding

/-!
# The shortest decimal of a binary64 number

For one digit, two digits and so on, the two neighbours of the number on that decimal grid are
tried; the first grid with a neighbour that reads back as the number wins, the nearer of two, and
of two equally near ones the even. Should no grid of seventeen digits do, the exact decimal
expansion is taken, so that the answer always reads back.
-/

set_option autoImplicit false

namespace YamlCodec.Double

/-- The decimal `digits · 10 ^ exponent`. -/
structure Decimal where
  digits : Nat
  exponent : Int
  deriving DecidableEq

/-- The same decimal without zeros at the end of its digits. -/
def Decimal.trim (digits : Nat) (exponent : Int) : Decimal :=
  if digits ≠ 0 ∧ digits % 10 = 0 then trim (digits / 10) (exponent + 1) else ⟨digits, exponent⟩
termination_by digits
decreasing_by omega

/-- The number nearest to the decimal. -/
def Decimal.toDouble (d : Decimal) (negative : Bool) : Double :=
  ofDecimal negative d.digits d.exponent

/-- The decimal is nearest to no magnitude but this one. -/
def Decimal.readsBack (d : Decimal) (code : Fin magnitudes) : Bool :=
  d.toDouble false == .finite false code

/-- The neighbours of a magnitude on the grid of multiples of a power of ten, the nearer first. -/
def neighbours (code : Nat) (place : Int) : List Decimal :=
  let r := (ratio code).scaled 10 (-place)
  let low := Decimal.trim r.floor place
  let high := Decimal.trim (r.floor + 1) place
  match r.half with
  | .lt => [low, high]
  | .gt => [high, low]
  | .eq => if r.floor % 2 = 0 then [low, high] else [high, low]

/-- The place of the first decimal digit of a positive magnitude. -/
def decimalPlace (code : Nat) : Int :=
  let guess : Int := ((ratio code).binaryPlace * 30103).fdiv 100000
  if ((ratio code).scaled 10 (-(guess + 1))).floor = 0 then guess else guess + 1

/-- The digits of a magnitude exactly. -/
def exactDecimal (code : Nat) : Decimal :=
  match scale code with
  | .ofNat k => ⟨significand code * Nat.pow 2 k, 0⟩
  | .negSucc k => ⟨significand code * Nat.pow 5 (k + 1), .negSucc k⟩

/-- Tries the grids whose last digit stands at `place` and below, as many as `tries`. -/
def firstReadingBack (code : Fin magnitudes) (place : Int) : Nat → Option Decimal
  | 0 => none
  | tries + 1 =>
    match (neighbours code.val place).find? (·.readsBack code) with
    | some d => some d
    | none => firstReadingBack code (place - 1) tries

/-- The shortest decimal that reads back as the magnitude. -/
def shortest (code : Fin magnitudes) : Decimal :=
  (firstReadingBack code (decimalPlace code.val) 17).getD (exactDecimal code.val)

end YamlCodec.Double
