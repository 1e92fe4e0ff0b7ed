import YamlCodec.Budget.Meter
import YamlCodec.Error

/-!
# Checking a whole stream against a budget
-/

set_option autoImplicit false

namespace YamlCodec.Budget

/-- Counts items up to the first breach or fault; too deep flow collections count as a breach. -/
def checkItems (m : Meter) : List Item → Except Error Report
  | [] => .ok m.report
  | .fault .flowTooDeep _ :: _ => .ok { m.report with breached := some Error.flowBreach }
  | .fault f mark :: _ => .error (.malformed f (.ofMark mark))
  | .event e _ :: items =>
    match m.observe e with
    | (m, some breach) => .ok { m.report with breached := some breach }
    | (m, none) => checkItems m items

end YamlCodec.Budget
