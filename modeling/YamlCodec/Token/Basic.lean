import YamlCodec.Source.Cursor
import YamlCodec.Scalar.Style

/-!
# Tokens

The marks and texts of a YAML stream, each with its place. Starts and ends of block collections,
which the text shows by indentation alone, are tokens of their own.
-/

set_option autoImplicit false

namespace YamlCodec

inductive Token.Kind where
  | streamStart
  | streamEnd
  | version
  | tagDirective (handle address : List Char)
  | reserved
  | documentStart
  | documentEnd
  | blockSequenceStart
  | blockMappingStart
  | blockEnd
  | flowSequenceStart
  | flowSequenceEnd
  | flowMappingStart
  | flowMappingEnd
  | blockEntry
  | flowEntry
  | key
  | value
  | alias (name : List Char)
  | anchor (name : List Char)
  | tag (handle suffix : List Char)
  | scalar (text : List Char) (style : Scalar.Style)

structure Token where
  kind : Token.Kind
  mark : Source.Mark

end YamlCodec
