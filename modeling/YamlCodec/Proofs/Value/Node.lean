import YamlCodec.Encode
import YamlCodec.Proofs.Value.Shape
import YamlCodec.Proofs.Writer.Node

/-!
# Values as nodes

The tree of scalars, sequences and mappings that a value is written as. Where the nesting is allowed,
the walk over a value tells exactly this tree.
-/

set_option autoImplicit false

namespace YamlCodec.Value
open YamlCodec.Text

/-- A leaf that is written without quotes. -/
def bareNode (cs : List Char) : Writer.Node := .scalar (String.ofList cs) .any

mutual

def node : Value → Writer.Node
  | null => bareNode "null".toList
  | bool true => bareNode "true".toList
  | bool false => bareNode "false".toList
  | integer i => bareNode (Digit.signedNumeral i.toInt)
  | double d => bareNode (Scalar.Float.text d)
  | string s => .scalar s (if Scalar.needsQuotes s then .doubleQuoted else .any)
  | array items => .sequence (itemNodes items)
  | object entries => .mapping (entryNodes entries)

def itemNodes : List Value → List Writer.Node
  | [] => []
  | v :: rest => node v :: itemNodes rest

def entryNodes : List (String × Value) → List (Writer.Key × Writer.Node)
  | [] => []
  | (k, v) :: rest => ((k, .any), node v) :: entryNodes rest

end

mutual

/-- The walk tells the node of a value that does not nest too deep. -/
theorem cues_eq (v : Value) {limit depth : Nat} (h : depth + v.depth ≤ limit) :
    v.cues limit depth = v.node.events.map .event := by
  match v with
  | null => rfl
  | bool true => rfl
  | bool false => rfl
  | integer i => rfl
  | double d => rfl
  | string s => rfl
  | array items =>
    rw [Value.depth] at h
    rw [cues, if_neg (by omega), itemCues_eq items (by omega), node, Writer.Node.events]
    simp
  | object entries =>
    rw [Value.depth] at h
    rw [cues, if_neg (by omega), entryCues_eq entries (by omega), node, Writer.Node.events]
    simp

theorem itemCues_eq (items : List Value) {limit depth : Nat}
    (h : depth + itemDepth items ≤ limit) :
    itemCues limit depth items = (Writer.Node.itemEvents (itemNodes items)).map .event := by
  match items with
  | [] => rfl
  | v :: rest =>
    rw [itemDepth] at h
    rw [itemCues, cues_eq v (by omega), itemCues_eq rest (by omega), itemNodes,
      Writer.Node.itemEvents, List.map_append]

theorem entryCues_eq (entries : List (String × Value)) {limit depth : Nat}
    (h : depth + entryDepth entries ≤ limit) :
    entryCues limit depth entries = (Writer.Node.entryEvents (entryNodes entries)).map .event := by
  match entries with
  | [] => rfl
  | (k, v) :: rest =>
    rw [entryDepth] at h
    rw [entryCues, cues_eq v (by omega), entryCues_eq rest (by omega), entryNodes,
      Writer.Node.entryEvents, List.map_cons, List.map_append]

end

/-- A walk that ends at the depth after the limit, having told a beginning of these events. -/
def EndsTooDeep (limit : Nat) (cues : List Cue) (events : List Writer.Event) : Prop :=
  ∃ es more later, cues = es.map .event ++ .tooDeep (limit + 1) :: later ∧ events = es ++ more

namespace EndsTooDeep
variable {limit : Nat} {cues : List Cue} {events : List Writer.Event}

theorem here (limit : Nat) (later : List Cue) (events : List Writer.Event) :
    EndsTooDeep limit (.tooDeep (limit + 1) :: later) events := ⟨[], events, later, rfl, rfl⟩

theorem append (h : EndsTooDeep limit cues events) (later : List Cue) (more : List Writer.Event) :
    EndsTooDeep limit (cues ++ later) (events ++ more) := by
  obtain ⟨es, left, rest, rfl, rfl⟩ := h
  exact ⟨es, left ++ more, rest ++ later, by simp, by simp⟩

theorem after (h : EndsTooDeep limit cues events) (es : List Writer.Event) :
    EndsTooDeep limit (es.map .event ++ cues) (es ++ events) := by
  obtain ⟨es', left, rest, rfl, rfl⟩ := h
  exact ⟨es ++ es', left, rest, by simp, by simp⟩

end EndsTooDeep

mutual

/-- The walk over a value that nests too deep tells its node up to the first collection beyond the
limit. -/
theorem cues_deep (v : Value) {limit depth : Nat} (hlimit : depth ≤ limit) (h : limit < depth + v.depth) :
    EndsTooDeep limit (v.cues limit depth) v.node.events := by
  match v with
  | array items =>
    rw [Value.depth] at h
    rw [cues, node, Writer.Node.events]
    split
    · obtain rfl : depth = limit := by omega
      exact .here _ _ _
    · exact ((itemCues_deep items (by omega) (by omega)).append _ _).after [.sequenceStart]
  | object entries =>
    rw [Value.depth] at h
    rw [cues, node, Writer.Node.events]
    split
    · obtain rfl : depth = limit := by omega
      exact .here _ _ _
    · exact ((entryCues_deep entries (by omega) (by omega)).append _ _).after [.mappingStart]
  | null | bool _ | integer _ | double _ | string _ =>
    simp only [Value.depth] at h
    omega

theorem itemCues_deep (items : List Value) {limit depth : Nat} (hlimit : depth ≤ limit)
    (h : limit < depth + itemDepth items) :
    EndsTooDeep limit (itemCues limit depth items) (Writer.Node.itemEvents (itemNodes items)) := by
  match items with
  | [] =>
    rw [itemDepth] at h
    omega
  | v :: items =>
    rw [itemDepth] at h
    rw [itemCues, itemNodes, Writer.Node.itemEvents]
    by_cases hv : limit < depth + v.depth
    · exact (cues_deep v hlimit hv).append _ _
    · rw [cues_eq v (by omega)]
      exact (itemCues_deep items hlimit (by omega)).after _

theorem entryCues_deep (entries : List (String × Value)) {limit depth : Nat} (hlimit : depth ≤ limit)
    (h : limit < depth + entryDepth entries) :
    EndsTooDeep limit (entryCues limit depth entries) (Writer.Node.entryEvents (entryNodes entries)) := by
  match entries with
  | [] =>
    rw [entryDepth] at h
    omega
  | (k, v) :: entries =>
    rw [entryDepth] at h
    rw [entryCues, entryNodes, Writer.Node.entryEvents]
    by_cases hv : limit < depth + v.depth
    · exact ((cues_deep v hlimit hv).append _ _).after [.scalar k .any]
    · rw [cues_eq v (by omega)]
      exact ((entryCues_deep entries hlimit (by omega)).after _).after [.scalar k .any]

end

/-- The walk over a document is a sentence, or a beginning of one. -/
theorem documentCues_eq (v : Value) {limit : Nat} (h : v.depth ≤ limit) :
    v.documentCues limit = (Writer.streamEvents [v.node]).map .event := by
  rw [documentCues, cues_eq v (by omega)]
  simp [Writer.streamEvents, Writer.Node.documentEvents]

theorem documentCues_deep (v : Value) {limit : Nat} (h : limit < v.depth) :
    EndsTooDeep limit (v.documentCues limit) (Writer.streamEvents [v.node]) := by
  have hvalue := v.cues_deep (Nat.zero_le limit) (by omega)
  have hdocument := (hvalue.append [.event .documentEnd, .event .streamEnd] [.documentEnd, .streamEnd]).after
    [.streamStart, .documentStart]
  simpa [documentCues, Writer.streamEvents, Writer.Node.documentEvents] using hdocument

end YamlCodec.Value
