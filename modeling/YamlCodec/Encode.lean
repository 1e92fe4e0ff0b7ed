import YamlCodec.Value.Basic
import YamlCodec.Writer.Session

/-!
# Encoding values

A value is walked in order, one event for each leaf, key, and start and end of a collection. A
collection that nests too deep ends the walk.
-/

set_option autoImplicit false

namespace YamlCodec
open YamlCodec.Text

/-- One step of the walk over a value. -/
inductive Cue where
  | event (e : Writer.Event)
  /-- A collection at this depth is one too many. -/
  | tooDeep (depth : Nat)

namespace Value

/-- The event of a leaf that is written without quotes. -/
def bare (cs : List Char) : Cue := .event (.scalar (String.ofList cs) .any)

/-- A string is quoted where its text alone would be read as something else. -/
def stringCue (s : String) : Cue :=
  .event (.scalar s (if Scalar.needsQuotes s then .doubleQuoted else .any))

mutual

/-- The walk over a value inside `depth` collections, of which `limit` are allowed. -/
def cues (limit depth : Nat) : Value → List Cue
  | null => [bare "null".toList]
  | bool true => [bare "true".toList]
  | bool false => [bare "false".toList]
  | integer i => [bare (Digit.signedNumeral i.toInt)]
  | double d => [bare (Scalar.Float.text d)]
  | string s => [stringCue s]
  | array items =>
    if limit < depth + 1 then [.tooDeep (depth + 1)]
    else .event .sequenceStart :: (itemCues limit (depth + 1) items ++ [.event .sequenceEnd])
  | object entries =>
    if limit < depth + 1 then [.tooDeep (depth + 1)]
    else .event .mappingStart :: (entryCues limit (depth + 1) entries ++ [.event .mappingEnd])

def itemCues (limit depth : Nat) : List Value → List Cue
  | [] => []
  | v :: rest => cues limit depth v ++ itemCues limit depth rest

/-- Keys are written as they are, since they are read back as they are. -/
def entryCues (limit depth : Nat) : List (String × Value) → List Cue
  | [] => []
  | (k, v) :: rest =>
    .event (.scalar k .any) :: (cues limit depth v ++ entryCues limit depth rest)

end

/-- The walk over a document of one value. -/
def documentCues (limit : Nat) (v : Value) : List Cue :=
  .event .streamStart :: .event .documentStart ::
    (v.cues limit 0 ++ [.event .documentEnd, .event .streamEnd])

end Value

/-- Follows cues up to the first failure, and then requires the stream to be closed. -/
def follow (o : WriterOptions) (s : Writer.Session) : List Cue → Writer.Session × Option Error
  | [] => (s, s.finish)
  | .tooDeep depth :: _ => (s, some (.overBudget (.depth depth) .unknown))
  | .event e :: rest =>
    match s.feed o e with
    | (s, none) => follow o s rest
    | (s, some error) => (s, some error)

/-- Encodes a value into a sink, which may hold a part of it after a failure. -/
def encodeInto (sink : Writer.Sink) (v : Value) (o : WriterOptions) : Writer.Sink × Option Error :=
  if o.indentStep = 0 then (sink, some (.invalidArgument .indentStepPositive))
  else
    let r := follow o (.start sink) (v.documentCues o.maxDepth)
    (r.1.sink, r.2)

/-- The text of a value. -/
def encode (v : Value) (o : WriterOptions := {}) : Except Error String :=
  match encodeInto .unlimited v o with
  | (sink, none) => .ok sink.written
  | (_, some e) => .error e

end YamlCodec
