/-!
# Options of block layout
-/

set_option autoImplicit false

namespace YamlCodec

structure WriterOptions where
  /-- Columns from a key to its nested entries. -/
  indentStep : Nat := 2
  /-- Empty collections are written as brackets; without them they read back as null. -/
  emptyAsBraces : Bool := true
  /-- Deepest nesting of collections that is encoded. -/
  maxDepth : Nat := 2000
  /-- The number of columns that a machine word tells apart; none if columns have no bound. -/
  columnLimit : Option Nat := some 0x10000000000000000

namespace WriterOptions

/-- A sum of columns as a word holds it: past the last column it starts again from zero. -/
def column (o : WriterOptions) (n : Nat) : Nat :=
  match o.columnLimit with
  | none => n
  | some limit => n % limit

end WriterOptions
end YamlCodec
