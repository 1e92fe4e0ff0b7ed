import YamlCodec.Budget.Meter
import YamlCodec.Error

/-!
# Parts of a document

The items of a stream reduced to what a value is built from: scalars, aliases and the starts and
ends of collections. A budget is enforced on every event, and the first breach or fault ends the
parts.
-/

set_option autoImplicit false

namespace YamlCodec.Decode

inductive Part.Kind where
  | scalar (text : String) (style : Scalar.Style) (tag : Option String)
  | alias
  | sequenceStart
  | sequenceEnd
  | mappingStart
  | mappingEnd

structure Part where
  kind : Part.Kind
  location : Location

/-- Why there are no more parts. -/
inductive Ending where
  /-- The stream ended, its last event being here. -/
  | exhausted (last : Location)
  | failed (e : Error)

structure Supply where
  parts : List Part
  ending : Ending

/-- The part that an event stands for, if any. -/
def Part.ofEvent? : Event → Option Part.Kind
  | .scalar text style tag => some (.scalar text style tag)
  | .alias => some .alias
  | .sequenceStart => some .sequenceStart
  | .sequenceEnd => some .sequenceEnd
  | .mappingStart => some .mappingStart
  | .mappingEnd => some .mappingEnd
  | _ => none

/-- Counts an event if there is a budget. -/
def meter (m : Option Meter) (e : Event) : Option Meter × Option Breach :=
  match m with
  | none => (none, none)
  | some m =>
    let r := m.observe e
    (some r.1, r.2)

def Supply.cons (kind : Option Part.Kind) (l : Location) (s : Supply) : Supply :=
  match kind with
  | some k => { s with parts := ⟨k, l⟩ :: s.parts }
  | none => s

/-- The parts of items, `last` being the place of the event before them. -/
def Supply.ofItems (m : Option Meter) (last : Location) : List Item → Supply
  | [] => ⟨[], .exhausted last⟩
  | .fault f mark :: _ => ⟨[], .failed (.ofFault f mark)⟩
  | .event e mark :: items =>
    match meter m e with
    | (_, some breach) => ⟨[], .failed (.overBudget breach (.ofMark mark))⟩
    | (m, none) => (Supply.ofItems m (.ofMark mark) items).cons (Part.ofEvent? e) (.ofMark mark)

end YamlCodec.Decode
