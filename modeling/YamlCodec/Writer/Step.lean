import YamlCodec.Scalar.Plain
import YamlCodec.Writer.Emit
import YamlCodec.Writer.Event
import YamlCodec.Writer.Options

/-!
# Block layout, event by event

An event is taken where it may stand, and refused anywhere else. What it writes depends on the collection
that is open around it; blanks and line breaks are held back until it is known what comes.
-/

set_option autoImplicit false

namespace YamlCodec.Writer

/-- Keys whose text is longer than this are written with a mark of their own. -/
def maxImplicitKey : Nat := 1024

/-- The text of a scalar as it is written. -/
def render (text : String) (p : Presentation) : List Char :=
  match p with
  | .any =>
    if Scalar.isPlainSafe text.toList then text.toList else Scalar.Quoted.encode text.toList
  | .doubleQuoted => Scalar.Quoted.encode text.toList

namespace Emit

/-- Moves to where the next entry of a collection begins. -/
def entryStart (f : Frame) : Emit Unit :=
  if f.length = 0 then
    match f.lead with
    | .inline => space
    | .newline => do
      newline
      indent f.column
    | .lineStart => indent f.column
  else indent f.column

/-- Begins an entry of a sequence for the node that comes; a root or the value of a key needs nothing. -/
def beginEntry : Emit Unit := do
  match (← current).stack with
  | ⟨.sequence, column, lead, length⟩ :: _ =>
    entryStart ⟨.sequence, column, lead, length⟩
    write (.text ['-'])
    change (State.updateTop fun f => { f with length := f.length + 1 })
  | _ => pure ()

/-- The text of a key, with the mark of an explicit one if it is long. -/
def keyText (column : Nat) (key : List Char) : Emit Unit :=
  if maxImplicitKey < key.length then do
    write (.text ['?', ' '])
    write (.text key)
    newline
    indent column
  else write (.text key)

/-- A key of the mapping on top with its colon. -/
def writeKey (key : List Char) : Emit Unit := do
  match (← current).stack with
  | [] => refuse .keyOutsideMapping
  | f :: _ =>
    entryStart f
    keyText f.column key
    write (.text [':'])
    change (State.updateTop fun f => { f with kind := .mapping true, length := f.length + 1 })

/-- A scalar that is not a key, behind a blank unless it is the root. -/
def writeScalar (slot : Slot) (text : List Char) : Emit Unit := do
  beginEntry
  when (slot ≠ .root) space
  write (.text text)
  newline
  change State.endNode

/-- The column and the lead of a collection that begins in a slot. -/
def place (o : WriterOptions) : Slot → Emit (Nat × Lead)
  | .key => refuse .keyNotScalar
  | .root => pure (0, .lineStart)
  | .item dash => pure (o.column (dash + 2), .inline)
  | .value key => pure (o.column (key + max 1 o.indentStep), .newline)

def openCollection (o : WriterOptions) (kind : Kind) : Emit Unit := do
  let (column, lead) ← place o (← current).slot
  beginEntry
  change fun s => { s with stack := ⟨kind, column, lead, 0⟩ :: s.stack }

/-- The brackets of an empty collection. -/
def writeEmpty (o : WriterOptions) (lead : Lead) (brackets : List Char) : Emit Unit := do
  when (lead ≠ .lineStart) space
  when (o.emptyAsBraces = true) (write (.text brackets))
  newline

/-- Ends the collection on top, which is taken off first; an empty one is written only now. -/
def close (o : WriterOptions) (brackets : List Char) : Emit Unit := do
  let s ← current
  match s.stack with
  | [] => refuse .noOpenCollection
  | f :: fs =>
    change fun s => { s with stack := fs }
    when (f.length = 0) (writeEmpty o f.lead brackets)
    change State.endNode

/-- An event within a document whose root is not complete. -/
def nodeEvent (o : WriterOptions) (e : Event) : Emit Unit := do
  let s ← current
  match e with
  | .scalar text p =>
    match s.slot with
    | .key => writeKey (render text p)
    | slot => writeScalar slot (render text p)
  | .sequenceStart => openCollection o .sequence
  | .mappingStart => openCollection o (.mapping false)
  | .sequenceEnd =>
    match s.stack with
    | ⟨.sequence, _, _, _⟩ :: _ => close o ['[', ']']
    | _ => refuse .sequenceEndUnmatched
  | .mappingEnd =>
    match s.stack with
    | ⟨.mapping false, _, _, _⟩ :: _ => close o ['{', '}']
    | ⟨.mapping true, _, _, _⟩ :: _ => refuse .valueMissing
    | _ => refuse .mappingEndUnmatched
  | _ => refuse .nodeExpected

def enter (stage : Stage) : Emit Unit := change fun s => { s with stage }

def event (o : WriterOptions) (e : Event) : Emit Unit := do
  let s ← current
  match s.stage, e with
  | .initial, .streamStart => enter .stream
  | .initial, _ => refuse .streamStartExpected
  | .stream, .documentStart => enter (.document false)
  | .stream, .streamEnd => enter .finished
  | .stream, _ => refuse .documentOrEndExpected
  | .document true, .documentEnd => enter .stream
  | .document true, _ => refuse .documentEndExpected
  | .document false, .documentEnd =>
    refuse (if s.stack.isEmpty then .documentEmpty else .collectionsOpen)
  | .document false, e => nodeEvent o e
  | .finished, _ => refuse .afterStreamEnd

end Emit
end YamlCodec.Writer
