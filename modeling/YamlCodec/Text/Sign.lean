/-!
# An optional sign in front of a text
-/

set_option autoImplicit false

namespace YamlCodec.Text.Sign

/-- Takes one leading `+` or `-` off; the flag tells a minus. -/
def split : List Char → Bool × List Char
  | '+' :: cs => (false, cs)
  | '-' :: cs => (true, cs)
  | cs => (false, cs)

end YamlCodec.Text.Sign
