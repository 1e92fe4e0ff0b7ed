import YamlCodec.Lexeme.Tag
import YamlCodec.Lexeme.Trailing

/-!
# Directives

A line at the head of a document that begins with a percent sign: the version of the language, the
prefix that a tag handle stands for, or something else, which is passed over.
-/

set_option autoImplicit false

namespace YamlCodec.Lexeme.Directive
open YamlCodec.Source YamlCodec.Text

inductive Kind where
  | version
  | tag (handle address : List Char)
  | other

def blanks (cs : List Char) : Nat := (cs.takeWhile isBlank).length

/-- Length of a version number of at most nine digits. -/
def number (cs : List Char) : Except Fault Nat :=
  let n := (cs.takeWhile Char.isDigit).length
  if n == 0 || 9 < n then .error .directiveVersion else .ok n

/-- Length of two version numbers with a point between them, after blanks. -/
def version (cs : List Char) : Except Fault Nat := do
  let start := blanks cs
  let major ← number (cs.drop start)
  let rest := cs.drop (start + major)
  if rest.head? == some '.' then
    let minor ← number (rest.drop 1)
    return start + major + 1 + minor
  else .error .directiveVersion

/-- The address that a handle stands for: a local one after a mark, or a full one. -/
def target (cs : List Char) : Except Fault (List Char × Nat) :=
  match cs with
  | '!' :: rest =>
    match Tag.address isAddress 0 ['!'] 1 rest with
    | .ok (taken, n) => .ok (taken.reverse, n)
    | .error e => .error e
  | c :: _ =>
    if isTagChar c then
      match Tag.address isAddress 0 [] 0 cs with
      | .ok (taken, n) => .ok (taken.reverse, n)
      | .error e => .error e
    else .error .tagAddress
  | [] => .error .tagAddress

/-- A handle and its address, each after blanks, with their length. -/
def tag (cs : List Char) : Except Fault (Kind × Nat) := do
  let start := blanks cs
  if (cs.drop start).head? != some '!' then .error .tagHandle
  else
    let h := Tag.handle (cs.drop start)
    if !Tag.isNamed h && h.length != 1 then .error .tagHandle
    else
      let rest := cs.drop (start + h.length)
      let gap := blanks rest
      let (address, n) ← target (rest.drop gap)
      if gapAhead (rest.drop (gap + n)) then return (.tag h address, start + h.length + gap + n)
      else .error .directiveUnterminated

/-- The directive after its name, with its length. -/
def parameters (name cs : List Char) : Except Fault (Kind × Nat) :=
  if name == ['Y', 'A', 'M', 'L'] then do return (.version, ← version cs)
  else if name == ['T', 'A', 'G'] then tag cs
  else .ok (.other, lineLength cs)

/-- Reads a directive after its percent sign, line break included. -/
def read (cs : List Char) : Except Fault (Kind × Nat) := do
  let name := cs.takeWhile isWord
  if name.isEmpty || !gapAhead (cs.drop name.length) then .error .directiveName
  else
    let (directive, n) ← parameters name (cs.drop name.length)
    let rest := cs.drop (name.length + n)
    let t := trailing true 0 false false rest
    if t.glued then .error .commentTouchesToken
    else if lineEnds (rest.drop t.length) then
      return (directive, name.length + n + t.length + breakLength (rest.drop t.length))
    else .error .directiveUnterminated

end YamlCodec.Lexeme.Directive
