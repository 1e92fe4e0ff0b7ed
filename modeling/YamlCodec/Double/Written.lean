import YamlCodec.Double.Shortest
import YamlCodec.Text.Digit

/-!
# Decimal text of binary64 numbers

The shortest decimal is written positionally while its first digit stands between the fifth place
after the point and the sixteenth before it, whole numbers with `.0`; otherwise with one digit
before the point and a signed exponent.
-/

set_option autoImplicit false

namespace YamlCodec.Double
open YamlCodec.Text

/-- Which places of the first digit are written positionally. -/
structure Window where
  lowest : Int
  highest : Int

/-- The positional places of numbers in YAML and JSON text. -/
def window : Window := ⟨-5, 15⟩

/-- Digits with a point after the first `count` of them; missing ones are zeros. -/
def withPoint (digits : List Char) (count : Nat) : List Char :=
  let whole := digits.take count ++ List.replicate (count - digits.length) '0'
  let fraction := digits.drop count
  whole ++ '.' :: (if fraction.isEmpty then ['0'] else fraction)

/-- Positional text of digits whose first one stands at `place`. -/
def positional (digits : List Char) : Int → List Char
  | .ofNat k => withPoint digits (k + 1)
  | .negSucc k => '0' :: '.' :: (List.replicate k '0' ++ digits)

/-- Text with one digit before the point and an exponent. -/
def scientific (digits : List Char) (place : Int) : List Char :=
  let fraction := digits.drop 1
  digits.take 1 ++ (if fraction.isEmpty then [] else '.' :: fraction) ++
    'e' :: (if place < 0 then '-' else '+') :: Digit.numeral place.natAbs

/-- Text of a decimal. -/
def Decimal.text (d : Decimal) (w : Window) : List Char :=
  let digits := Digit.numeral d.digits
  let place : Int := d.exponent + digits.length - 1
  if w.lowest ≤ place ∧ place ≤ w.highest then positional digits place
  else scientific digits place

/-- Text of a finite number. -/
def finiteText (negative : Bool) (code : Fin magnitudes) : List Char :=
  (if negative then ['-'] else []) ++
    (if code.val = 0 then ['0', '.', '0'] else (shortest code).text window)

end YamlCodec.Double
