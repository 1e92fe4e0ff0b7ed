import YamlCodec.Decode.Build
import YamlCodec.Event.Reader
import YamlCodec.Budget.Check

/-!
# Decoding text

The value of the first document of a text. Later documents are not looked at, so nothing in them
can fail.
-/

set_option autoImplicit false

namespace YamlCodec

/-- The value of the first document told by items, under a budget if there is one. -/
def decodeItems (items : List Item) (budget : Option Budget) : Except Error Value :=
  (Decode.Supply.ofItems (budget.map Meter.start) .unknown items).value

/-- The value of the first document of a text, under a budget if there is one. -/
def decode (text : String) (budget : Option Budget := some {}) : Except Error Value :=
  decodeItems (Event.read text) budget

/-- Counts all documents of a text against a budget. -/
def checkBudget (text : String) (budget : Budget := {}) : Except Error Report :=
  Budget.checkItems (.start budget) (Event.read text)

end YamlCodec
