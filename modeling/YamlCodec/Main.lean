import YamlCodec.CommandLine

/-!
# The program
-/

set_option autoImplicit false

namespace YamlCodec.CommandLine

/-- Reads a file. -/
def readContent (path : String) : IO Content := do
  try
    let bytes ← IO.FS.readBinFile path
    match String.fromUTF8? bytes with
    | some text => return .text text
    | none => return .undecodable
  catch e =>
    match e with
    | .noFileOrDirectory .. => return .missing
    | e => return .unreadable (toString e)

end YamlCodec.CommandLine

open YamlCodec.CommandLine in
def main (args : List String) : IO UInt32 := do
  let content ←
    match Request.ofArguments? args with
    | some r => readContent r.path
    | none => pure .missing
  let outcome := run args fun _ => content
  IO.print outcome.output
  match outcome.complaint with
  | some c => IO.eprint c.text
  | none => pure ()
  return UInt32.ofNat outcome.code
