import YamlCodec.Source.Cursor
import YamlCodec.Source.Fault
import YamlCodec.Scalar.Style

/-!
# Events of a YAML stream

A stream is told as a flat list of events: marks of the stream and of its documents, scalars and
aliases, and the starts and ends of collections. What a reader of a text yields is a list of items,
each an event or a fault, with its place.
-/

set_option autoImplicit false

namespace YamlCodec

inductive Event where
  | streamStart
  | streamEnd
  | documentStart
  | documentEnd
  /-- Tells nothing. -/
  | nothing
  | alias
  | scalar (text : String) (style : Scalar.Style) (tag : Option String)
  | sequenceStart
  | sequenceEnd
  | mappingStart
  | mappingEnd

inductive Item where
  | event (e : Event) (mark : Source.Mark)
  | fault (f : Source.Fault) (mark : Source.Mark)

end YamlCodec
