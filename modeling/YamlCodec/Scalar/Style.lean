/-!
# Presentation styles of scalars
-/

set_option autoImplicit false

namespace YamlCodec.Scalar

inductive Style where
  | plain
  | singleQuoted
  | doubleQuoted
  | literal
  | folded
  deriving DecidableEq

/-- Quoted scalars are strings whatever they hold. -/
def Style.isQuoted : Style → Bool
  | .singleQuoted => true
  | .doubleQuoted => true
  | _ => false

end YamlCodec.Scalar
