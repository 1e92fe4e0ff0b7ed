import YamlCodec.Double.Rounding
import YamlCodec.Double.Written

/-!
# Numbers of JSON text

How a finite double is written, and which double a decimal is read as, are not settled by the notation.
-/

set_option autoImplicit false

namespace YamlCodec.Json

structure Numbers where
  /-- The text of a finite double. -/
  print : Bool → Fin Double.magnitudes → List Char
  /-- The double of a decimal by its sign, its digits and their power of ten. -/
  round : Bool → Nat → Int → Double

/-- The shortest decimal is written, and the nearest double is read. -/
def Numbers.shortest : Numbers := ⟨Double.finiteText, Double.ofDecimal⟩

end YamlCodec.Json
