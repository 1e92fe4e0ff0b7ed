import YamlCodec.Decode.Text
import YamlCodec.Encode

/-!
# The command line

The arguments name a file and may ask for a check. A file is decoded and printed again, or its
counts are printed against the default budget. What is done is told as an exit code and two texts.
-/

set_option autoImplicit false

namespace YamlCodec.CommandLine

def usage : String :=
  "Usage: saphyr-value [--check] <file.yaml>\n" ++
    "Decodes the first YAML document of the file and prints it re-encoded. " ++
    "With --check, prints the budget report of the whole stream instead."

structure Request where
  check : Bool
  path : String
  deriving DecidableEq

/-- Reads the arguments: `--check` anywhere, and one path. -/
def requestFrom (check : Bool) (path : Option String) : List String → Option Request
  | [] => path.map fun p => ⟨check, p⟩
  | arg :: rest =>
    if arg = "--check" then requestFrom true path rest
    else
      match path with
      | none => requestFrom check (some arg) rest
      | some _ => none

def Request.ofArguments? (args : List String) : Option Request := requestFrom false none args

/-- What reading a file gave. -/
inductive Content where
  | text (s : String)
  | missing
  | undecodable
  /-- Any other reason, as the system tells it. -/
  | unreadable (reason : String)

/-- Why nothing, or not all, was printed. -/
inductive Complaint where
  | usage
  | unreadable (path reason : String)
  /-- The text breaks the grammar or a limit. -/
  | invalid (path : String) (e : Error)
  | notEncoded (e : Error)

def Complaint.text : Complaint → String
  | .usage => CommandLine.usage ++ "\n"
  | .unreadable path reason => "Failed to read " ++ path ++ ": " ++ reason ++ "\n"
  | .invalid path e => path ++ " invalid:\n" ++ e.message ++ "\n"
  | .notEncoded e => "Failed to encode: " ++ e.message ++ "\n"

structure Outcome where
  code : Nat
  output : String
  complaint : Option Complaint

/-- Prints a value after what was printed before. -/
def printed (before : String) (code : Nat) (v : Value) : Outcome :=
  match encode v with
  | .ok text => ⟨code, before ++ text, none⟩
  | .error e => ⟨3, before, some (.notEncoded e)⟩

/-- A count as an integer of the report. -/
def count (n : Nat) : Value := .integer (Int64.ofNat (min n 0x7fffffffffffffff))

def reportValue (r : Report) : Value :=
  .object [
    ("breached",
      match r.breached with
      | some b => .string b.text
      | none => .null),
    ("events", count r.events),
    ("aliases", count r.aliases),
    ("documents", count r.documents),
    ("nodes", count r.nodes),
    ("max_depth", count r.maxDepth),
    ("total_scalar_bytes", count r.scalarBytes)]

def checkText (path text : String) : Outcome :=
  match checkBudget text with
  | .ok r => printed "Budget report:\n" (if r.breached.isSome then 3 else 0) (reportValue r)
  | .error e => ⟨3, "", some (.invalid path e)⟩

def printText (path text : String) : Outcome :=
  match decode text with
  | .ok v => printed "" 0 v
  | .error e => ⟨3, "", some (.invalid path e)⟩

/-- Answers a request with the content of its file. -/
def answer (r : Request) : Content → Outcome
  | .text s => if r.check then checkText r.path s else printText r.path s
  | .missing => ⟨2, "", some (.unreadable r.path "No such file or directory (os error 2)")⟩
  | .undecodable => ⟨2, "", some (.unreadable r.path "stream did not contain valid UTF-8")⟩
  | .unreadable reason => ⟨2, "", some (.unreadable r.path reason)⟩

/-- The whole run, `readFile` telling what a path holds. -/
def run (args : List String) (content : String → Content) : Outcome :=
  match Request.ofArguments? args with
  | some r => answer r (content r.path)
  | none => ⟨1, "", some .usage⟩

end YamlCodec.CommandLine
