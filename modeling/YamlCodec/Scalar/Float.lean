import YamlCodec.Scalar.HexFloat
import YamlCodec.Text.Word
import YamlCodec.Double.Written

/-!
# Floating-point literals

A literal is a word for infinity or not-a-number, a decimal with an optional point and exponent, or
a hexadecimal one after `0x`, each behind an optional sign. Numbers are written so that they read
back as floating-point literals: the text always has a point.
-/

set_option autoImplicit false

namespace YamlCodec.Scalar.Float
open YamlCodec.Text

/-- The decimal exponent after a mantissa, zero if there is none. -/
def exponent? : List Char → Option Int
  | [] => some 0
  | c :: cs =>
    if c == 'e' || c == 'E' then
      let signed := Sign.split cs
      (Digit.number? 10 signed.2).map fun n => if signed.1 then -(n : Int) else n
    else none

/-- Digits with an optional point among or beside them, then an optional exponent. -/
def decimal? (negative : Bool) (cs : List Char) : Option Double :=
  let whole := Digit.span 10 cs
  let fraction :=
    match whole.2 with
    | '.' :: rest => Digit.span 10 rest
    | rest => ([], rest)
  match Digit.number? 10 (whole.1 ++ fraction.1), exponent? fraction.2 with
  | some digits, some exponent =>
    some (Double.ofDecimal negative digits (exponent - fraction.1.length))
  | _, _ => none

/-- Reads a whole text as a number. -/
def read? (cs : List Char) : Option Double :=
  let signed := Sign.split cs
  match signed.2 with
  | '0' :: 'x' :: rest => (HexFloat.read? rest).map fun x => if signed.1 then x.negate else x
  | '0' :: 'X' :: rest => (HexFloat.read? rest).map fun x => if signed.1 then x.negate else x
  | body =>
    if Word.among ["inf", "infinity"] body then some (.infinity signed.1)
    else if Word.same "nan".toList body then some .nan
    else decimal? signed.1 body

/-- Puts `.0` before the exponent, or at the end, of a number text that has no point. -/
def pointed (cs : List Char) : List Char :=
  if cs.contains '.' then cs
  else
    let parts := HexFloat.cutAt (· == 'e') cs
    parts.1 ++ '.' :: '0' ::
      match parts.2 with
      | some exponent => 'e' :: exponent
      | none => []

/-- The text of a number. -/
def text : Double → List Char
  | .nan => ['.', 'n', 'a', 'n']
  | .infinity negative => (if negative then ['-'] else []) ++ ['.', 'i', 'n', 'f']
  | .finite negative code => pointed (Double.finiteText negative code)

end YamlCodec.Scalar.Float
