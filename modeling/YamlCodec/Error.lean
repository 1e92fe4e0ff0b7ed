import YamlCodec.Budget.Basic
import YamlCodec.Source.Cursor
import YamlCodec.Source.Fault

/-!
# Errors

Why reading or writing failed, where in the text if that is known, and how the failure is told.
-/

set_option autoImplicit false

namespace YamlCodec
open YamlCodec.Text

/-- Line and column of a place in a text, both from one; zero stands for an unknown one. They are kept
in words, and what a word does not hold is lost. -/
structure Location where
  line : UInt32
  column : UInt32
  deriving DecidableEq

namespace Location

def unknown : Location := ⟨0, 0⟩

def ofMark (m : Source.Mark) : Location := ⟨m.line.toUInt32, (m.column + 1).toUInt32⟩

def isKnown (l : Location) : Bool := l.line != 0 && l.column != 0

end Location

/-- What a place of a document should have held. -/
inductive Expectation where
  | scalarKey
  | sequenceEnd
  | mappingEnd
  deriving DecidableEq

def Expectation.text : Expectation → String
  | scalarKey => "scalar mapping key"
  | sequenceEnd => "sequence end"
  | mappingEnd => "mapping end"

/-- Why a writer does not take an event. -/
inductive Refusal where
  | streamStartExpected
  | documentOrEndExpected
  | documentEndExpected
  | documentEmpty
  | collectionsOpen
  | afterStreamEnd
  | keyNotScalar
  | sequenceEndUnmatched
  | mappingEndUnmatched
  | valueMissing
  | nodeExpected
  /-- A key is to be written, and no collection is open. -/
  | keyOutsideMapping
  /-- A collection is to be closed, and none is open. -/
  | noOpenCollection
  | streamNotClosed
  deriving DecidableEq

def Refusal.text : Refusal → String
  | streamStartExpected => "expected stream start"
  | documentOrEndExpected => "expected document start or stream end"
  | documentEndExpected => "expected document end after the root node"
  | documentEmpty => "document has no content"
  | collectionsOpen => "document ended with open collections"
  | afterStreamEnd => "event after stream end"
  | keyNotScalar => "mapping keys must be scalars"
  | sequenceEndUnmatched => "sequence end does not match an open sequence"
  | mappingEndUnmatched => "mapping end does not match an open mapping"
  | valueMissing => "mapping closed after a key without a value"
  | nodeExpected => "expected a node"
  | keyOutsideMapping => "key outside of a mapping"
  | noOpenCollection => "no open collection"
  | streamNotClosed => "stream was not closed"

/-- A precondition that does not hold. -/
inductive Precondition where
  | indentStepPositive
  deriving DecidableEq

def Precondition.text : Precondition → String
  | indentStepPositive => "indent step must be positive"

inductive Error where
  /-- The text breaks the grammar. -/
  | malformed (fault : Source.Fault) (location : Location)
  /-- The events end within a node. -/
  | endOfInput (location : Location)
  /-- An event stands where another one has to. -/
  | unexpected (expected : Expectation) (location : Location)
  | overBudget (breach : Breach) (location : Location)
  | refused (refusal : Refusal)
  /-- The sink takes no more. -/
  | sinkFull
  | invalidArgument (precondition : Precondition)
  deriving DecidableEq

namespace Error

/-- The channel that a failure belongs to. -/
inductive Kind where
  | invalidArgument
  | resource
  | structural
  deriving DecidableEq

def kind : Error → Kind
  | invalidArgument _ => .invalidArgument
  | overBudget _ _ => .resource
  | _ => .structural

def location? : Error → Option Location
  | malformed _ l | endOfInput l | unexpected _ l | overBudget _ l =>
    if l.isKnown then some l else none
  | _ => none

/-- A message, with the place if it is known. -/
def located (message : String) (l : Location) : String :=
  if l.isKnown then
    message ++ " at line " ++ String.ofList (Digit.numeral l.line.toNat) ++ ", column " ++
      String.ofList (Digit.numeral l.column.toNat)
  else message

/-- What is said of a sink that takes no more. -/
def sinkMessage : String := "an error occurred when formatting an argument"

def message : Error → String
  | malformed fault l => located fault.message l
  | endOfInput l => located "unexpected end of input" l
  | unexpected expected l => located ("unexpected event: expected " ++ expected.text) l
  | overBudget breach l => located ("YAML budget breached: " ++ breach.text) l
  | refused refusal => "emitter error: " ++ refusal.text
  | sinkFull => "formatting error: " ++ sinkMessage
  | invalidArgument p => "invalid argument: " ++ p.text

/-- Breach that a text stands for which nests flow collections too deep. -/
def flowBreach : Breach := .depth 256

/-- A fault of the text; flow collections that nest too deep break the limit on nesting. -/
def ofFault (fault : Source.Fault) (m : Source.Mark) : Error :=
  match fault with
  | .flowTooDeep => overBudget flowBreach (.ofMark m)
  | _ => malformed fault (.ofMark m)

end Error
end YamlCodec
