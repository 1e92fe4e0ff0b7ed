/-!
# Words without regard to ASCII case

Keywords are compared letter by letter after folding the twenty-six ASCII capitals; every other
character stands for itself.
-/

set_option autoImplicit false

namespace YamlCodec.Text.Word

/-- The text with its ASCII capitals lowered. -/
def fold (cs : List Char) : List Char := cs.map Char.toLower

/-- Equality up to ASCII case. -/
def same (a b : List Char) : Bool := fold a == fold b

/-- The text is one of the words, up to ASCII case. -/
def among (words : List String) (cs : List Char) : Bool :=
  words.any fun w => same w.toList cs

end YamlCodec.Text.Word
