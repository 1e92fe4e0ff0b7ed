import YamlCodec.Decode.Supply
import YamlCodec.Scalar.Resolve
import YamlCodec.Value.Entries

/-!
# Building a value from parts

Open collections are kept on a stack, innermost first. A finished node goes into the collection on
top or, if there is none, is the result; parts after it are left alone.
-/

set_option autoImplicit false

namespace YamlCodec.Decode

/-- A collection under construction. -/
inductive Frame where
  /-- Items in reverse. -/
  | sequence (items : List Value)
  /-- Entries, and the key whose value is to come. -/
  | mapping (entries : Entries) (key : Option String)

/-- Where the building stands after a part. -/
inductive Progress where
  | going (stack : List Frame)
  | done (v : Value)

/-- A key has to come next. -/
def keyAwaited : List Frame → Bool
  | .mapping _ none :: _ => true
  | _ => false

/-- Puts a finished node into the collection on top. -/
def place (v : Value) : List Frame → Progress
  | [] => .done v
  | .sequence items :: stack => .going (.sequence (v :: items) :: stack)
  | .mapping entries (some k) :: stack =>
    .going (.mapping (Entries.insert entries k v) none :: stack)
  | .mapping entries none :: stack => .going (.mapping entries none :: stack)

/-- Takes one part. Keys keep their text as it is; an alias is null. -/
def accept (stack : List Frame) (p : Part) : Except Error Progress :=
  match p.kind with
  | .scalar text style tag =>
    match stack with
    | .mapping entries none :: stack => .ok (.going (.mapping entries (some text) :: stack))
    | stack => .ok (place (Scalar.resolve text style tag) stack)
  | .alias =>
    if keyAwaited stack then .error (.unexpected .scalarKey p.location)
    else .ok (place .null stack)
  | .sequenceStart =>
    if keyAwaited stack then .error (.unexpected .scalarKey p.location)
    else .ok (.going (.sequence [] :: stack))
  | .mappingStart =>
    if keyAwaited stack then .error (.unexpected .scalarKey p.location)
    else .ok (.going (.mapping [] none :: stack))
  | .sequenceEnd =>
    match stack with
    | .sequence items :: stack => .ok (place (.array items.reverse) stack)
    | _ => .error (.unexpected .sequenceEnd p.location)
  | .mappingEnd =>
    match stack with
    | .mapping entries none :: stack => .ok (place (.object entries) stack)
    | _ => .error (.unexpected .mappingEnd p.location)

/-- The outcome when the parts are used up: null if no node has begun. -/
def atEnd (stack : List Frame) : Ending → Except Error Value
  | .failed e => .error e
  | .exhausted last => if stack.isEmpty then .ok .null else .error (.endOfInput last)

/-- Builds one node; also gives the parts that were not used. -/
def build (ending : Ending) (stack : List Frame) : List Part → Except Error Value × List Part
  | [] => (atEnd stack ending, [])
  | p :: parts =>
    match accept stack p with
    | .error e => (.error e, parts)
    | .ok (.done v) => (.ok v, parts)
    | .ok (.going stack) => build ending stack parts

/-- The value of the first node of a supply, null if there is none. -/
def Supply.value (s : Supply) : Except Error Value := (build s.ending [] s.parts).1

end YamlCodec.Decode
