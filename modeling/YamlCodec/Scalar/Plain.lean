import YamlCodec.Scalar.Quoted
import YamlCodec.Scalar.Resolve

/-!
# Which texts may stand without quotes

A text is safe as a plain scalar if the grammar reads it back unchanged wherever a block layout puts
it. A string additionally needs quotes if its text alone would be read as another kind of value.
-/

set_option autoImplicit false

namespace YamlCodec.Scalar

/-- Characters that begin something other than a plain scalar. -/
def isIndicator (c : Char) : Bool :=
  ['[', ']', '{', '}', ',', '#', '&', '*', '!', '|', '>', '\'', '"', '%', '@', '\x60'].contains c

/-- Characters that no plain scalar may hold: controls, line separators, unprintable ones. -/
def isUnsafe (c : Char) : Bool :=
  isControl c || [0xfeff, 0x2028, 0x2029, 0xfffe, 0xffff].contains c.toNat

/-- A colon followed by a space somewhere in the text. -/
def holdsSeparator : List Char → Bool
  | ':' :: ' ' :: _ => true
  | _ :: cs => holdsSeparator cs
  | [] => false

/-- The text begins with three times the same character. -/
def beginsThrice (mark : Char) : List Char → Bool
  | a :: b :: c :: _ => a == mark && b == mark && c == mark
  | _ => false

/-- The text begins as a plain scalar may. -/
def beginsPlain : List Char → Bool
  | [] => false
  | c :: rest =>
    c != ' ' && !isIndicator c &&
      !((c == '-' || c == '?' || c == ':') && (rest.isEmpty || rest.head? == some ' ')) &&
      !beginsThrice '-' (c :: rest) && !beginsThrice '.' (c :: rest)

/-- The text ends as a plain scalar may. -/
def endsPlain (cs : List Char) : Bool :=
  match cs.getLast? with
  | none => false
  | some c => c != ' ' && c != ':'

/-- The text reads back as a plain scalar in block context. -/
def isPlainSafe (cs : List Char) : Bool :=
  beginsPlain cs && endsPlain cs && !holdsSeparator cs && !cs.contains '#' && !cs.any isUnsafe

/-- Words that are always quoted when they are strings. -/
def reserved : List String :=
  ["true", "false", "yes", "no", "on", "off", "null", "~", ".inf", "-.inf", ".nan"]

/-- A string of this text has to be quoted to stay a string. -/
def needsQuotes (text : String) : Bool :=
  text.isEmpty || Text.Word.among reserved text.toList || (Float.read? text.toList).isSome ||
    (inferred? text.toList).isSome

end YamlCodec.Scalar
