import YamlCodec.Text.Word
import YamlCodec.Double.Basic

/-!
# Words that stand for null, booleans and special numbers
-/

set_option autoImplicit false

namespace YamlCodec.Scalar.Keyword
open YamlCodec.Text

/-- The empty text, `~`, or `null` in any case. -/
def isNull (cs : List Char) : Bool :=
  cs.isEmpty || cs == ['~'] || Word.same "null".toList cs

def isTrue (cs : List Char) : Bool := Word.among ["true", "yes", "on"] cs

def isFalse (cs : List Char) : Bool := Word.among ["false", "no", "off"] cs

def bool? (cs : List Char) : Option Bool :=
  if isTrue cs then some true
  else if isFalse cs then some false
  else none

/-- The infinities and not-a-number. -/
def special? (cs : List Char) : Option Double :=
  if Word.among [".inf", "+.inf"] cs then some (.infinity false)
  else if Word.same "-.inf".toList cs then some (.infinity true)
  else if Word.same ".nan".toList cs then some .nan
  else none

end YamlCodec.Scalar.Keyword
