/-!
# What a writer is told
-/

set_option autoImplicit false

namespace YamlCodec.Writer

/-- How a scalar is to be presented. -/
inductive Presentation where
  /-- Without quotes where the text is safe so. -/
  | any
  | doubleQuoted
  deriving DecidableEq

inductive Event where
  | streamStart
  | streamEnd
  | documentStart
  | documentEnd
  | scalar (text : String) (presentation : Presentation)
  | sequenceStart
  | sequenceEnd
  | mappingStart
  | mappingEnd
  deriving DecidableEq

end YamlCodec.Writer
