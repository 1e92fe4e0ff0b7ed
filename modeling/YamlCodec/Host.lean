import YamlCodec.Decode.Text
import YamlCodec.Encode

/-!
# A codec for script hosts

A host asks for a value or a text and gets it or nothing. A failure of a precondition or of a limit
leaves its reason until it is asked for; a malformed text or a refused event leaves none.
-/

set_option autoImplicit false

namespace YamlCodec

/-- Reasons that a host may ask for. -/
inductive Host.Reason where
  | invalidArgument
  | outOfMemory
  deriving DecidableEq

def Host.Reason.text : Host.Reason → String
  | invalidArgument => "Invalid argument"
  | outOfMemory => "Out of memory"

structure Host where
  budget : Option Budget := some {}
  options : WriterOptions := {}
  pending : Option Host.Reason := none

namespace Host

/-- The reason that a failure leaves, if any. -/
def Reason.ofKind? : Error.Kind → Option Reason
  | .invalidArgument => some .invalidArgument
  | .resource => some .outOfMemory
  | .structural => none

def record (h : Host) (e : Error) : Host :=
  match Reason.ofKind? e.kind with
  | some r => { h with pending := some r }
  | none => h

/-- The result without the reason of a failure, which is recorded. -/
def settle {α : Type} (h : Host) : Except Error α → Option α × Host
  | .ok a => (some a, h)
  | .error e => (none, h.record e)

/-- Decodes a string; no other value is accepted. -/
def parse (h : Host) (arg : Value) : Option Value × Host :=
  match arg with
  | .string text => h.settle (decode text h.budget)
  | _ => (none, { h with pending := some .invalidArgument })

/-- Encodes any value. -/
def stringify (h : Host) (arg : Value) : Option String × Host :=
  h.settle (encode arg h.options)

/-- Takes the pending reason. -/
def takeError (h : Host) : Option String × Host :=
  (h.pending.map Reason.text, { h with pending := none })

end Host
end YamlCodec
