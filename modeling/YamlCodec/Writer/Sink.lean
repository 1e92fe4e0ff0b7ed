/-!
# Sinks of characters

A sink takes text one character after the other. It may have room for a number of characters only
and refuses the next one. Runs of blanks are handed over by their number, so that a run that does
not fit is never formed.
-/

set_option autoImplicit false

namespace YamlCodec.Writer

/-- A piece of output. -/
inductive Chunk where
  | text (cs : List Char)
  | blanks (n : Nat)

namespace Chunk

def length : Chunk → Nat
  | text cs => cs.length
  | blanks n => n

/-- The first characters of a chunk. -/
def take (k : Nat) : Chunk → List Char
  | text cs => cs.take k
  | blanks n => List.replicate (min k n) ' '

/-- All characters of a chunk. -/
def toList : Chunk → List Char
  | text cs => cs
  | blanks n => List.replicate n ' '

end Chunk

/-- What was written, and the room that is left if it is limited. -/
structure Sink where
  written : String
  room : Option Nat

namespace Sink

def unlimited : Sink := ⟨"", none⟩

def limited (room : Nat) : Sink := ⟨"", some room⟩

/-- Takes a chunk as far as there is room; the flag tells that all of it was taken. -/
def accept (s : Sink) (c : Chunk) : Sink × Bool :=
  match s.room with
  | none => (⟨s.written ++ String.ofList c.toList, none⟩, true)
  | some n =>
    if c.length ≤ n then (⟨s.written ++ String.ofList c.toList, some (n - c.length)⟩, true)
    else (⟨s.written ++ String.ofList (c.take n), some 0⟩, false)

end Sink
end YamlCodec.Writer
