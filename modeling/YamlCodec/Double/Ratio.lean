/-!
# Quotients of natural numbers

Magnitudes and decimals are compared and rounded as quotients. A quotient is scaled by a power of a
base on the side that keeps both of its numbers natural.
-/

set_option autoImplicit false

namespace YamlCodec.Double

structure Ratio where
  num : Nat
  den : Nat
  deriving DecidableEq

namespace Ratio

/-- The quotient times a power of the base. -/
def scaled (r : Ratio) (base : Nat) : Int → Ratio
  | .ofNat k => ⟨r.num * Nat.pow base k, r.den⟩
  | .negSucc k => ⟨r.num, r.den * Nat.pow base (k + 1)⟩

/-- The largest natural number that is not above the quotient. -/
def floor (r : Ratio) : Nat := r.num / r.den

/-- How twice the part above the floor compares with one. -/
def half (r : Ratio) : Ordering := compare (2 * (r.num % r.den)) r.den

/-- The natural number nearest to the quotient, a half going to the even one. -/
def round (r : Ratio) : Nat :=
  match r.half with
  | .lt => r.floor
  | .gt => r.floor + 1
  | .eq => if r.floor % 2 = 0 then r.floor else r.floor + 1

/-- The largest `k` with `2 ^ k` not above the quotient of positive numbers. -/
def binaryPlace (r : Ratio) : Int :=
  let k : Int := (r.num.log2 : Int) - r.den.log2
  let s := r.scaled 2 (-k)
  if s.den ≤ s.num then k else k - 1

end Ratio
end YamlCodec.Double
