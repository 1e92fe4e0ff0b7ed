import YamlCodec.Error
import YamlCodec.Writer.Sink
import YamlCodec.Writer.State

/-!
# Programs of a writer

A session joins the state of a writer with its sink. A program reads the state, changes it and writes
chunks, in the order it tells. It ends where the sink gives out or where it refuses to go on; what has
been written and settled up to there stays.
-/

set_option autoImplicit false

namespace YamlCodec.Writer

structure Session where
  state : State
  sink : Sink

abbrev Emit := EStateM Error Session

namespace Emit

def current : Emit State := do
  return (← get).state

def change (f : State → State) : Emit Unit :=
  modify fun s => { s with state := f s.state }

/-- Writes a chunk, of which a part may be taken before the sink gives out. -/
def write (c : Chunk) : Emit Unit := do
  let s ← get
  let (sink, taken) := s.sink.accept c
  set { s with sink }
  if taken then pure () else throw .sinkFull

/-- Runs a program only if a condition holds. -/
def when (p : Prop) [Decidable p] (x : Emit Unit) : Emit Unit := if p then x else pure ()

def refuse {α : Type} (r : Refusal) : Emit α := throw (.refused r)

def space : Emit Unit := write (.text [' '])

def newline : Emit Unit := write (.text ['\n'])

def indent (column : Nat) : Emit Unit := write (.blanks column)

end Emit
end YamlCodec.Writer
