import YamlCodec.Budget.Basic
import YamlCodec.Event.Basic

/-!
# Counting a stream against a budget

Every event counts. A scalar or a start of a collection is a node, a scalar adds its bytes, and a
start adds one to the nesting until its end. A count is taken before its limit is tested, and a
breach ends the event: what comes after it in the event is not counted.
-/

set_option autoImplicit false

namespace YamlCodec

/-- A budget with the counts so far and the present nesting. -/
structure Meter where
  budget : Budget
  report : Report
  depth : Nat

namespace Meter

def start (b : Budget) : Meter := ⟨b, .empty, 0⟩

/-- Byte counts stop growing at the greatest 64-bit number. -/
def byteCeiling : Nat := 0xffffffffffffffff

def countNode (m : Meter) : Meter × Option Breach :=
  let n := m.report.nodes + 1
  ({ m with report := { m.report with nodes := n } },
    if m.budget.maxNodes < n then some (.nodes n) else none)

def countBytes (m : Meter) (n : Nat) : Meter × Option Breach :=
  let n := min (m.report.scalarBytes + n) byteCeiling
  ({ m with report := { m.report with scalarBytes := n } },
    if m.budget.maxScalarBytes < n then some (.scalarBytes n) else none)

def descend (m : Meter) : Meter × Option Breach :=
  let d := m.depth + 1
  let n := max m.report.maxDepth d
  ({ m with depth := d, report := { m.report with maxDepth := n } },
    if m.budget.maxDepth < n then some (.depth n) else none)

/-- One count, and another if the first broke no limit. -/
def andThen (r : Meter × Option Breach) (f : Meter → Meter × Option Breach) :
    Meter × Option Breach :=
  match r.2 with
  | some _ => r
  | none => f r.1

/-- The counts that an event adds besides itself. -/
def countContent (m : Meter) : Event → Meter × Option Breach
  | .streamStart | .streamEnd | .documentEnd | .nothing => (m, none)
  | .documentStart =>
    ({ m with report := { m.report with documents := m.report.documents + 1 } }, none)
  | .alias => ({ m with report := { m.report with aliases := m.report.aliases + 1 } }, none)
  | .scalar text _ _ => andThen m.countNode (·.countBytes text.utf8ByteSize)
  | .sequenceStart | .mappingStart => andThen m.countNode (·.descend)
  | .sequenceEnd | .mappingEnd => ({ m with depth := m.depth - 1 }, none)

/-- Counts an event; the breach is that of the first limit it breaks. -/
def observe (m : Meter) (e : Event) : Meter × Option Breach :=
  let n := m.report.events + 1
  let m := { m with report := { m.report with events := n } }
  if m.budget.maxEvents < n then (m, some (.events n)) else m.countContent e

end Meter
end YamlCodec
