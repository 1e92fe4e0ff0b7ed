/-!
# State of a writer

The stage of the stream, and the stack of open collections.
-/

set_option autoImplicit false

namespace YamlCodec.Writer

inductive Stage where
  | initial
  | stream
  | document (rootDone : Bool)
  | finished
  deriving DecidableEq

inductive Kind where
  | sequence
  | mapping (awaitingValue : Bool)
  deriving DecidableEq

/-- Where the first entry of a collection stands. -/
inductive Lead where
  /-- At the start of the line, where the root is. -/
  | lineStart
  /-- After the dash of the entry around it. -/
  | inline
  /-- On the line after its key. -/
  | newline
  deriving DecidableEq

/-- An open collection: the column of its entries and their number so far. -/
structure Frame where
  kind : Kind
  column : Nat
  lead : Lead
  length : Nat
  deriving DecidableEq

/-- Where the next node goes. -/
inductive Slot where
  | root
  /-- After a dash in a column. -/
  | item (column : Nat)
  /-- After a key in a column. -/
  | value (column : Nat)
  /-- Where a key has to come. -/
  | key
  deriving DecidableEq

structure State where
  stage : Stage
  /-- Open collections, innermost first. -/
  stack : List Frame
  deriving DecidableEq

namespace State

def start : State := ⟨.initial, []⟩

def slot (s : State) : Slot :=
  match s.stack with
  | [] => .root
  | ⟨.sequence, column, _, _⟩ :: _ => .item column
  | ⟨.mapping true, column, _, _⟩ :: _ => .value column
  | ⟨.mapping false, _, _, _⟩ :: _ => .key

/-- Changes the collection on top. -/
def updateTop (f : Frame → Frame) (s : State) : State :=
  match s.stack with
  | [] => s
  | top :: fs => { s with stack := f top :: fs }

/-- A node has been completed: the root, an item, or the value of a key. -/
def endNode (s : State) : State :=
  match s.stack with
  | [] => { s with stage := .document true }
  | ⟨.mapping _, column, lead, length⟩ :: fs =>
    { s with stack := ⟨.mapping false, column, lead, length⟩ :: fs }
  | ⟨.sequence, _, _, _⟩ :: _ => s

end State
end YamlCodec.Writer
