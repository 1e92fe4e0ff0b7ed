import YamlCodec.Token.Scan
import YamlCodec.Event.Basic

/-!
# Grammar of events over tokens

What may come next is a phase, and the phases to return to after a node are a stack. A node that is
missing is a plain scalar `~`, or an empty one if it has a tag or an anchor.
-/

set_option autoImplicit false

namespace YamlCodec.Event
open YamlCodec.Source YamlCodec.Token

inductive Phase where
  | streamStart
  /-- Before a document; one without a start mark is possible if `bare` holds. -/
  | documentStart (bare : Bool)
  | documentContent
  | documentEnd
  | node
  | blockSequence (first : Bool)
  | indentlessSequence
  | blockKey (first : Bool)
  | blockValue
  | flowSequence (first : Bool)
  | flowKey (first : Bool)
  | flowValue
  /-- After a key of a flow mapping that has no colon. -/
  | flowValueMissing
  | pairKey
  | pairValue
  | pairEnd
  | finished

structure Reader where
  tokens : List Token
  failure : Option Failure
  phase : Phase
  stack : List Phase
  anchors : List (List Char)
  handles : List (List Char × List Char)

/-- An event with its place, and the reader after it. -/
structure Step where
  event : Event
  mark : Mark
  reader : Reader

namespace Reader

def start (ts : Token.Stream) : Reader where
  tokens := ts.tokens
  failure := ts.failure
  phase := .streamStart
  stack := []
  anchors := []
  handles := []

/-- The next token; where there is none the fault of the scan comes. -/
def peek (r : Reader) : Except Failure Token :=
  match r.tokens with
  | t :: _ => .ok t
  | [] => .error (r.failure.getD ⟨.inputExhausted, Mark.start⟩)

def skip (r : Reader) : Reader := { r with tokens := r.tokens.tail }

def enter (r : Reader) (p : Phase) : Reader := { r with phase := p }

/-- Returns to a phase after the node that comes. -/
def push (r : Reader) (p : Phase) : Reader := { r with stack := p :: r.stack }

/-- Goes back to the phase around a node that has ended. -/
def pop (r : Reader) : Reader :=
  match r.stack with
  | p :: ps => { r with phase := p, stack := ps }
  | [] => { r with phase := .finished }

def missing : Event := .scalar "~" .plain none

/-- The address that a handle stands for, or the handle itself where it needs no declaration. -/
def handleAddress? (r : Reader) (handle : List Char) : Option (List Char) :=
  match r.handles.lookup handle with
  | some address => some address
  | none =>
    if handle == ['!', '!'] then some "tag:yaml.org,2002:".toList
    else if 2 ≤ handle.length then none
    else some handle

/-- The text of a tag: its address, an exclamation mark and its suffix; a local tag has one mark. -/
def tagText (r : Reader) (handle suffix : List Char) (mark : Mark) : Except Failure String :=
  match r.handleAddress? handle with
  | some address =>
    .ok (String.ofList ((if address == ['!'] then [] else address) ++ '!' :: suffix))
  | none => .error ⟨.undeclaredHandle, mark⟩

def addAnchor (r : Reader) (name : List Char) : Reader := { r with anchors := name :: r.anchors }

/-- An anchor and a tag before a node. -/
structure Properties where
  anchored : Bool
  tag : Option String

/-- Reads an anchor, a tag, or both in either order. -/
def properties (r : Reader) : Except Failure (Properties × Reader) := do
  let t ← r.peek
  match t.kind with
  | .anchor name =>
    let r := r.skip.addAnchor name
    let u ← r.peek
    match u.kind with
    | .tag handle suffix => return (⟨true, some (← r.tagText handle suffix u.mark)⟩, r.skip)
    | _ => return (⟨true, none⟩, r)
  | .tag handle suffix =>
    let text ← r.tagText handle suffix t.mark
    let r := r.skip
    let u ← r.peek
    match u.kind with
    | .anchor name => return (⟨false, some text⟩, r.skip.addAnchor name)
    | _ => return (⟨false, some text⟩, r)
  | _ => return (⟨false, none⟩, r)

/-- Reads the node that comes; block collections only where `block` holds, and a sequence that is
not indented only where `indentless` holds. -/
def node (r : Reader) (block indentless : Bool) : Except Failure Step := do
  let t ← r.peek
  match t.kind with
  | .alias name =>
    if r.anchors.contains name then return ⟨.alias, t.mark, r.skip.pop⟩
    else throw ⟨.unknownAnchor, t.mark⟩
  | _ =>
    let (ps, r) ← r.properties
    let t ← r.peek
    let absent : Except Failure Step :=
      if ps.anchored || ps.tag.isSome then return ⟨.scalar "" .plain ps.tag, t.mark, r.pop⟩
      else throw ⟨.nodeExpected, t.mark⟩
    match t.kind with
    | .scalar text style => return ⟨.scalar (String.ofList text) style ps.tag, t.mark, r.skip.pop⟩
    | .flowSequenceStart => return ⟨.sequenceStart, t.mark, r.enter (.flowSequence true)⟩
    | .flowMappingStart => return ⟨.mappingStart, t.mark, r.enter (.flowKey true)⟩
    | .blockEntry =>
      if indentless then return ⟨.sequenceStart, t.mark, r.enter .indentlessSequence⟩ else absent
    | .blockSequenceStart =>
      if block then return ⟨.sequenceStart, t.mark, r.enter (.blockSequence true)⟩ else absent
    | .blockMappingStart =>
      if block then return ⟨.mappingStart, t.mark, r.enter (.blockKey true)⟩ else absent
    | _ => absent

/-- Reads the directives before a document: the handles they declare and the tokens after them. -/
def directives (version : Bool) (handles : List (List Char × List Char)) :
    List Token → Except Failure (List (List Char × List Char) × List Token)
  | ⟨.version, m⟩ :: ts =>
    if version then .error ⟨.duplicateVersion, m⟩ else directives true handles ts
  | ⟨.tagDirective handle address, m⟩ :: ts =>
    if (handles.lookup handle).isSome then .error ⟨.duplicateHandle, m⟩
    else directives version ((handle, address) :: handles) ts
  | ⟨.reserved, _⟩ :: ts => directives version handles ts
  | ts => .ok (handles, ts)

/-- A document with a start mark, after its directives. -/
def explicitDocument (r : Reader) : Except Failure Step := do
  let (handles, tokens) ← directives false [] r.tokens
  let r := { r with handles, tokens }
  let t ← r.peek
  match t.kind with
  | .documentStart =>
    return ⟨.documentStart, t.mark, (r.skip.push .documentEnd).enter .documentContent⟩
  | _ => throw ⟨.documentStartExpected, t.mark⟩

def isDocumentEnd (t : Token) : Bool :=
  match t.kind with
  | .documentEnd => true
  | _ => false

def documentStart (r : Reader) (bare : Bool) : Except Failure Step := do
  let r := { r with tokens := r.tokens.dropWhile isDocumentEnd }
  let t ← r.peek
  match t.kind with
  | .streamEnd => return ⟨.streamEnd, t.mark, r.skip.enter .finished⟩
  | .version | .tagDirective _ _ | .reserved | .documentStart => r.explicitDocument
  | _ =>
    if bare then
      return ⟨.documentStart, t.mark, ({ r with handles := [] }.push .documentEnd).enter .node⟩
    else r.explicitDocument

def documentContent (r : Reader) : Except Failure Step := do
  let t ← r.peek
  match t.kind with
  | .version | .tagDirective _ _ | .reserved | .documentStart | .documentEnd | .streamEnd =>
    return ⟨missing, t.mark, r.pop⟩
  | _ => r.node true false

def documentEnd (r : Reader) : Except Failure Step := do
  let t ← r.peek
  let r := { r with handles := [] }
  match t.kind with
  | .documentEnd => return ⟨.documentEnd, t.mark, r.skip.enter (.documentStart true)⟩
  | .version | .tagDirective _ _ | .reserved => throw ⟨.directiveInsideDocument, t.mark⟩
  | _ => return ⟨.documentEnd, t.mark, r.enter (.documentStart false)⟩

def blockSequence (r : Reader) : Except Failure Step := do
  let t ← r.peek
  match t.kind with
  | .blockEnd => return ⟨.sequenceEnd, t.mark, r.skip.pop⟩
  | .blockEntry =>
    let r := r.skip
    let u ← r.peek
    match u.kind with
    | .blockEntry | .blockEnd => return ⟨missing, t.mark, r.enter (.blockSequence false)⟩
    | _ => (r.push (.blockSequence false)).node true false
  | _ => throw ⟨.sequenceEntryExpected, t.mark⟩

def indentlessSequence (r : Reader) : Except Failure Step := do
  let t ← r.peek
  match t.kind with
  | .blockEntry =>
    let r := r.skip
    let u ← r.peek
    match u.kind with
    | .blockEntry | .key | .value | .blockEnd =>
      return ⟨missing, u.mark, r.enter .indentlessSequence⟩
    | _ => (r.push .indentlessSequence).node true false
  | _ => return ⟨.sequenceEnd, t.mark, r.pop⟩

def blockKey (r : Reader) : Except Failure Step := do
  let t ← r.peek
  match t.kind with
  | .key =>
    let r := r.skip
    let u ← r.peek
    match u.kind with
    | .key | .value | .blockEnd => return ⟨missing, u.mark, r.enter .blockValue⟩
    | _ => (r.push .blockValue).node true true
  | .value => return ⟨missing, t.mark, r.enter .blockValue⟩
  | .blockEnd => return ⟨.mappingEnd, t.mark, r.skip.pop⟩
  | _ => throw ⟨.mappingKeyExpected, t.mark⟩

def blockValue (r : Reader) : Except Failure Step := do
  let t ← r.peek
  match t.kind with
  | .value =>
    let r := r.skip
    let u ← r.peek
    match u.kind with
    | .key | .value | .blockEnd => return ⟨missing, t.mark, r.enter (.blockKey false)⟩
    | _ => (r.push (.blockKey false)).node true true
  | _ => return ⟨missing, t.mark, r.enter (.blockKey false)⟩

/-- An entry of a flow sequence, or its end. -/
def flowEntryOrEnd (r : Reader) : Except Failure Step := do
  let t ← r.peek
  match t.kind with
  | .flowSequenceEnd => return ⟨.sequenceEnd, t.mark, r.skip.pop⟩
  | .key => return ⟨.mappingStart, t.mark, r.skip.enter .pairKey⟩
  | _ => (r.push (.flowSequence false)).node false false

def flowSequence (r : Reader) (first : Bool) : Except Failure Step := do
  if first then r.flowEntryOrEnd
  else
    let t ← r.peek
    match t.kind with
    | .flowSequenceEnd => return ⟨.sequenceEnd, t.mark, r.skip.pop⟩
    | .flowEntry => r.skip.flowEntryOrEnd
    | _ => throw ⟨.flowSequenceSeparator, t.mark⟩

/-- A key of a flow mapping, or its end. -/
def flowKeyOrEnd (r : Reader) : Except Failure Step := do
  let t ← r.peek
  match t.kind with
  | .flowMappingEnd => return ⟨.mappingEnd, t.mark, r.skip.pop⟩
  | .key =>
    let r := r.skip
    let u ← r.peek
    match u.kind with
    | .value | .flowEntry | .flowMappingEnd => return ⟨missing, u.mark, r.enter .flowValue⟩
    | _ => (r.push .flowValue).node false false
  | .value => return ⟨missing, t.mark, r.enter .flowValue⟩
  | _ => (r.push .flowValueMissing).node false false

def flowKey (r : Reader) (first : Bool) : Except Failure Step := do
  if first then r.flowKeyOrEnd
  else
    let t ← r.peek
    match t.kind with
    | .flowMappingEnd => return ⟨.mappingEnd, t.mark, r.skip.pop⟩
    | .flowEntry => r.skip.flowKeyOrEnd
    | _ => throw ⟨.flowMappingSeparator, t.mark⟩

def flowValue (r : Reader) : Except Failure Step := do
  let t ← r.peek
  match t.kind with
  | .value =>
    let r := r.skip
    let u ← r.peek
    match u.kind with
    | .flowEntry | .flowMappingEnd => return ⟨missing, t.mark, r.enter (.flowKey false)⟩
    | _ => (r.push (.flowKey false)).node false false
  | _ => return ⟨missing, t.mark, r.enter (.flowKey false)⟩

def flowValueMissing (r : Reader) : Except Failure Step := do
  let t ← r.peek
  return ⟨missing, t.mark, r.enter (.flowKey false)⟩

/-- The key of a pair after its mark. Where there is none, the token that shows this is used up. -/
def pairKey (r : Reader) : Except Failure Step := do
  let t ← r.peek
  match t.kind with
  | .value | .flowEntry | .flowSequenceEnd => return ⟨missing, t.mark, r.skip.enter .pairValue⟩
  | _ => (r.push .pairValue).node false false

def pairValue (r : Reader) : Except Failure Step := do
  let t ← r.peek
  match t.kind with
  | .value =>
    let r := r.skip
    let u ← r.peek
    match u.kind with
    | .flowEntry | .flowSequenceEnd => return ⟨missing, t.mark, r.enter .pairEnd⟩
    | _ => (r.push .pairEnd).node false false
  | _ => return ⟨missing, t.mark, r.enter .pairEnd⟩

/-- The next event in the phase of the reader. -/
def step (r : Reader) : Except Failure Step :=
  match r.phase with
  | .streamStart => do
    let t ← r.peek
    return ⟨.streamStart, t.mark, r.skip.enter (.documentStart true)⟩
  | .documentStart bare => r.documentStart bare
  | .documentContent => r.documentContent
  | .documentEnd => r.documentEnd
  | .node => r.node true false
  | .blockSequence first => (if first then r.skip else r).blockSequence
  | .indentlessSequence => r.indentlessSequence
  | .blockKey first => (if first then r.skip else r).blockKey
  | .blockValue => r.blockValue
  | .flowSequence first => (if first then r.skip else r).flowSequence first
  | .flowKey first => (if first then r.skip else r).flowKey first
  | .flowValue => r.flowValue
  | .flowValueMissing => r.flowValueMissing
  | .pairKey => r.pairKey
  | .pairValue => r.pairValue
  | .pairEnd => do
    let t ← r.peek
    return ⟨.mappingEnd, t.mark, r.enter (.flowSequence false)⟩
  | .finished => throw ⟨.inputExhausted, Mark.start⟩

/-- Reads on, at most as many events as there may be. -/
def items : Nat → Reader → List Item
  | 0, _ => []
  | fuel + 1, r =>
    match r.phase with
    | .finished => []
    | _ =>
      match r.step with
      | .error f => [.fault f.fault f.mark]
      | .ok s => .event s.event s.mark :: items fuel s.reader

end Reader

/-- What a reader of a text yields. -/
def read (text : String) : List Item :=
  let ts := Token.scan text.toList
  Reader.items (8 * ts.tokens.length + 16) (Reader.start ts)

end YamlCodec.Event
