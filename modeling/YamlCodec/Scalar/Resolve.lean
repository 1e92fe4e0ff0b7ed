import YamlCodec.Scalar.Keyword
import YamlCodec.Scalar.Integer
import YamlCodec.Scalar.Float
import YamlCodec.Scalar.Style
import YamlCodec.Scalar.Tag
import YamlCodec.Value.Basic

/-!
# The value of a scalar

A core tag decides first; the integer and float tags only for texts that are such literals. Then
quoted scalars are strings, and any other text is the first of null, boolean, special number,
`0o` octal, integer and float that it can be read as, or else the string it is.
-/

set_option autoImplicit false

namespace YamlCodec.Scalar

/-- The value of an untagged text without quotes, if it is not a string. -/
def inferred? (cs : List Char) : Option Value :=
  if Keyword.isNull cs then some .null
  else match Keyword.bool? cs with
  | some b => some (.bool b)
  | none =>
    match Keyword.special? cs with
    | some d => some (.double d)
    | none =>
      match Integer.octal? cs with
      | some i => some (.integer i)
      | none =>
        match Integer.read? cs with
        | some i => some (.integer i)
        | none => (Float.read? cs).map .double

/-- The value of an untagged text without quotes. -/
def infer (text : String) : Value := (inferred? text.toList).getD (.string text)

/-- The value that a core tag gives a text, if it decides. -/
def CoreTag.value? (tag : CoreTag) (text : String) : Option Value :=
  match tag with
  | null => some .null
  | bool => some (.bool (Keyword.isTrue text.toList))
  | int => (Integer.read? text.toList).map .integer
  | float => (Float.read? text.toList).map .double
  | str => some (.string text)

/-- The value of a scalar by its text, style and tag. -/
def resolve (text : String) (style : Style) (tag : Option String) : Value :=
  match (tag.bind fun t => CoreTag.named? t.toList).bind fun t => t.value? text with
  | some v => v
  | none => if style.isQuoted then .string text else infer text

end YamlCodec.Scalar
