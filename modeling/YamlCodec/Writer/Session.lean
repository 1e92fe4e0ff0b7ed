import YamlCodec.Writer.Step

/-!
# Sessions of a writer

Events are fed one after the other. A writer that has failed may be fed more.
-/

set_option autoImplicit false

namespace YamlCodec.Writer.Session

def start (sink : Sink) : Session := ⟨.start, sink⟩

/-- Feeds one event, with the error if it fails. -/
def feed (o : WriterOptions) (s : Session) (e : Event) : Session × Option Error :=
  match (Emit.event o e).run s with
  | .ok _ t => (t, none)
  | .error x t => (t, some x)

/-- Feeds events one after the other, going on after errors. -/
def feedAll (o : WriterOptions) (s : Session) (es : List Event) : Session :=
  es.foldl (fun s e => (s.feed o e).1) s

/-- The error of ending here, unless the stream is closed. -/
def finish (s : Session) : Option Error :=
  match s.state.stage with
  | .finished => none
  | _ => some (.refused .streamNotClosed)

end YamlCodec.Writer.Session
