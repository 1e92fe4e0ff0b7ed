import YamlCodec.Source.Class

/-!
# Positions in the source text

A cursor holds the text that is still to be read and the place where it begins. Line breaks are a
line feed, a carriage return, or both together.
-/

set_option autoImplicit false

namespace YamlCodec.Source

/-- A place in the text: characters before it, line from one, column from zero. -/
structure Mark where
  index : Nat
  line : Nat
  column : Nat
  deriving DecidableEq

def Mark.start : Mark := ⟨0, 1, 0⟩

/-- The unread text; `fresh` tells that only blanks stand before it on its line. -/
structure Cursor where
  rest : List Char
  mark : Mark
  fresh : Bool

namespace Cursor

def ofText (text : List Char) : Cursor := ⟨text, Mark.start, true⟩

/-- The place after one character; a carriage return before a line feed does not end the line. -/
def step (c : Char) (rest : List Char) (m : Mark) : Mark :=
  if c == '\n' || (c == '\r' && rest.head? != some '\n') then ⟨m.index + 1, m.line + 1, 0⟩
  else ⟨m.index + 1, m.line, m.column + 1⟩

/-- Moves over a number of characters. -/
def advance : Nat → Cursor → Cursor
  | 0, c => c
  | _ + 1, ⟨[], m, f⟩ => ⟨[], m, f⟩
  | n + 1, ⟨x :: xs, m, f⟩ =>
    advance n ⟨xs, step x xs m, isBreak x || (f && isBlank x)⟩

def column (c : Cursor) : Nat := c.mark.column

end Cursor
end YamlCodec.Source
