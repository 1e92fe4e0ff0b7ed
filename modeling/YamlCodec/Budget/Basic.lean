import YamlCodec.Text.Digit

/-!
# Budgets

Limits on what a stream may hold, what it means to break one, and the counts of a stream.
-/

set_option autoImplicit false

namespace YamlCodec

/-- Limits on a stream: events, nesting of collections, nodes, and bytes of scalar text. -/
structure Budget where
  maxEvents : Nat := 1000000
  maxDepth : Nat := 2000
  maxNodes : Nat := 250000
  maxScalarBytes : Nat := 67108864

/-- Which limit was broken, and the count that broke it. -/
inductive Breach where
  | events (n : Nat)
  | depth (n : Nat)
  | nodes (n : Nat)
  | scalarBytes (n : Nat)
  deriving DecidableEq

namespace Breach

/-- A name and a named count between braces. -/
def record (name field : String) (n : Nat) : String :=
  name ++ " \x7b " ++ field ++ ": " ++ String.ofList (Text.Digit.numeral n) ++ " \x7d"

def text : Breach → String
  | events n => record "Events" "events" n
  | depth n => record "Depth" "depth" n
  | nodes n => record "Nodes" "nodes" n
  | scalarBytes n => record "ScalarBytes" "total_scalar_bytes" n

end Breach

/-- Counts of a stream, and the breach that ended the count if there was one. -/
structure Report where
  breached : Option Breach
  events : Nat
  aliases : Nat
  documents : Nat
  nodes : Nat
  maxDepth : Nat
  scalarBytes : Nat
  deriving DecidableEq

def Report.empty : Report := ⟨none, 0, 0, 0, 0, 0, 0⟩

end YamlCodec
