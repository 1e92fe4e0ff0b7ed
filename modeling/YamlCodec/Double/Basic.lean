import YamlCodec.Double.Ratio

/-!
# Binary64 numbers

A number is not-a-number, an infinity, or a sign with a code: the position of its magnitude in
the increasing list of finite magnitudes, which is also the low 63 bits of its interchange form.
All encodings of not-a-number are one value.
-/

set_option autoImplicit false

namespace YamlCodec

/-- Number of finite magnitudes, and the code after the last of them. -/
def Double.magnitudes : Nat := 0x7ff0000000000000

/-- Number of codes from one power of two to the next. -/
def Double.binade : Nat := 0x10000000000000

/-- The bit that tells a negative number in the interchange form. -/
def Double.signBit : Nat := 0x8000000000000000

inductive Double where
  | nan
  | infinity (negative : Bool)
  | finite (negative : Bool) (code : Fin Double.magnitudes)
  deriving DecidableEq

namespace Double

def zero (negative : Bool) : Double := .finite negative ⟨0, by decide⟩

/-- A code past the last finite magnitude is an infinity. -/
def ofCode (negative : Bool) (code : Nat) : Double :=
  if h : code < magnitudes then .finite negative ⟨code, h⟩ else .infinity negative

/-- Reads the 64 bits of the interchange form. -/
def ofBits (bits : Nat) : Double :=
  let negative := bits / signBit % 2 == 1
  let code := bits % signBit
  if code ≤ magnitudes then ofCode negative code else .nan

/-- The 64 bits of the interchange form; not-a-number has no single one. -/
def bits? : Double → Option Nat
  | nan => none
  | infinity negative => some ((if negative then signBit else 0) + magnitudes)
  | finite negative code => some ((if negative then signBit else 0) + code.val)

/-- Integer significand of a magnitude. -/
def significand (code : Nat) : Nat :=
  if code < binade then code else binade + code % binade

/-- Power of two that scales the significand of a magnitude. -/
def scale (code : Nat) : Int :=
  if code < binade then -1074 else (code / binade : Nat) - 1075

/-- A magnitude as a quotient. -/
def ratio (code : Nat) : Ratio := Ratio.scaled ⟨significand code, 1⟩ 2 (scale code)

def negate : Double → Double
  | nan => nan
  | infinity negative => infinity (!negative)
  | finite negative code => finite (!negative) code

/-- Numeric equality: not-a-number equals nothing, and the two zeros are equal. -/
def equals : Double → Double → Bool
  | infinity a, infinity b => a == b
  | finite a m, finite b n => m == n && (a == b || m.val == 0)
  | _, _ => false

end Double
end YamlCodec
