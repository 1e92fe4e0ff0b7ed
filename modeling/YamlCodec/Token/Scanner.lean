import YamlCodec.Token.Basic
import YamlCodec.Source.Fault
import YamlCodec.Lexeme.Trailing

/-!
# State of the token scanner

Tokens are found from left to right, but a key is only known as one when its colon comes. So the
place where a key may begin is remembered as a candidate, one for the block context and one for each
open flow collection, and the tokens from the first candidate on are held back. Block collections
are opened and closed by the column at which their content begins.
-/

set_option autoImplicit false

namespace YamlCodec.Token
open YamlCodec.Source

/-- A fault and its place. -/
structure Failure where
  fault : Fault
  mark : Mark

/-- A place where a key may begin; it has to be one if nothing else may stand in its column. -/
structure Candidate where
  required : Bool
  /-- Number of tokens before it. -/
  position : Nat
  mark : Mark

/-- An open flow collection, with the candidate of the context around it. -/
structure Flow where
  sequence : Bool
  /-- The entry is a mapping of one pair whose start and end are tokens. -/
  pair : Bool
  outer : Option Candidate

/-- A step of indentation, with the column outside it. -/
structure Indent where
  outer : Int
  /-- The step opened a block collection. -/
  collection : Bool

structure Scanner where
  cursor : Cursor
  /-- Tokens in reverse. -/
  tokens : List Token
  count : Nat
  flows : List Flow
  candidate : Option Candidate
  indent : Int
  indents : List Indent
  keyAllowed : Bool
  /-- Where a value may follow its colon without a gap. -/
  adjacent : Nat
  /-- A brace or the mark of an explicit key stood in a flow collection, and no mapping of one pair
  has ended since. From there on such a mapping is told by its key alone. -/
  braced : Bool
  /-- Line of a comment that ended a plain scalar of block context just before. -/
  comment : Option Nat
  finished : Bool

/-- Deepest nesting of flow collections. -/
def flowLimit : Nat := 255

namespace Scanner

def start (text : List Char) : Scanner where
  cursor := Cursor.ofText text
  tokens := [⟨.streamStart, Mark.start⟩]
  count := 1
  flows := []
  candidate := none
  indent := -1
  indents := []
  keyAllowed := true
  adjacent := 0
  braced := false
  comment := none
  finished := false

def mark (s : Scanner) : Mark := s.cursor.mark

def rest (s : Scanner) : List Char := s.cursor.rest

def inFlow (s : Scanner) : Bool := !s.flows.isEmpty

def fail {α : Type} (s : Scanner) (f : Fault) : Except Failure α := .error ⟨f, s.mark⟩

/-- The result of a reader of text, a fault being placed here. -/
def lift {α : Type} (s : Scanner) : Except Fault α → Except Failure α
  | .ok a => .ok a
  | .error f => s.fail f

def advance (s : Scanner) (n : Nat) : Scanner := { s with cursor := s.cursor.advance n }

def emit (s : Scanner) (kind : Kind) (mark : Mark) : Scanner :=
  { s with tokens := ⟨kind, mark⟩ :: s.tokens, count := s.count + 1 }

/-- Puts a token before those from a position on. -/
def insert (s : Scanner) (position : Nat) (kind : Kind) (mark : Mark) : Scanner :=
  let later := s.count - position
  { s with
    tokens := s.tokens.take later ++ ⟨kind, mark⟩ :: s.tokens.drop later
    count := s.count + 1 }

def allowKey (s : Scanner) : Scanner := { s with keyAllowed := true }

def forbidKey (s : Scanner) : Scanner := { s with keyAllowed := false }

/-- The innermost step of indentation belongs to a block collection. -/
def atCollection (s : Scanner) : Bool :=
  match s.indents with
  | i :: _ => i.collection
  | [] => false

/-- Remembers this place as a candidate where a key is allowed. -/
def saveCandidate (s : Scanner) : Scanner :=
  if s.keyAllowed then
    { s with
      candidate := some
        { required := !s.inFlow && s.indent == (s.cursor.column : Int) && s.atCollection
          position := s.count
          mark := s.mark } }
  else s

/-- Gives up the candidate, which must not be one that has to be a key. -/
def dropCandidate (s : Scanner) : Except Failure Scanner :=
  match s.candidate with
  | some k => if k.required then s.fail .keyExpected else .ok { s with candidate := none }
  | none => .ok s

/-- A key of block context stays on one line and within 1024 characters. -/
def dropStale (s : Scanner) : Except Failure Scanner :=
  match s.candidate with
  | some k =>
    if !s.inFlow && (k.mark.line < s.mark.line || k.mark.index + 1024 < s.mark.index) then
      s.dropCandidate
    else .ok s
  | none => .ok s

/-- Number of tokens that no candidate holds back. -/
def settled (s : Scanner) : Nat :=
  s.flows.foldl
    (fun n f =>
      match f.outer with
      | some k => min n k.position
      | none => n)
    (match s.candidate with
      | some k => k.position
      | none => s.count)

/-- The tokens that no candidate holds back. -/
def released (s : Scanner) : List Token := s.tokens.reverse.take s.settled

/-- Opens a block collection at a column further in, its token at a position or at the end. -/
def openBlock (s : Scanner) (column : Nat) (position : Option Nat) (kind : Kind) (mark : Mark) :
    Scanner :=
  if s.inFlow then s
  else
    let s :=
      match s.indents with
      | i :: is =>
        if s.indent ≤ (column : Int) && !i.collection then
          { s with indent := i.outer, indents := is }
        else s
      | [] => s
    if s.indent < (column : Int) then
      let s := { s with indent := (column : Int), indents := ⟨s.indent, true⟩ :: s.indents }
      match position with
      | some p => s.insert p kind mark
      | none => s.emit kind mark
    else s

/-- Leaves steps of indentation while the column lies outside them. -/
def leave (column : Int) : List Indent → Scanner → Scanner
  | [], s => s
  | i :: is, s =>
    if column < s.indent then
      let s := { s with indent := i.outer, indents := is }
      leave column is (if i.collection then s.emit .blockEnd s.mark else s)
    else s

/-- Closes the block collections that lie further in than a column. -/
def closeBlocks (s : Scanner) (column : Int) : Scanner :=
  if s.inFlow then s else leave column s.indents s

/-- Requires content to stand at least one column further in. -/
def indentOne (s : Scanner) : Scanner :=
  if !s.inFlow && s.atCollection then
    { s with indent := s.indent + 1, indents := ⟨s.indent, false⟩ :: s.indents }
  else s

/-- Leaves the steps of indentation up to a block collection. -/
def leaveSteps : List Indent → Scanner → Scanner
  | [], s => s
  | i :: is, s =>
    if i.collection then s else leaveSteps is { s with indent := i.outer, indents := is }

/-- Returns to the column of the innermost block collection. -/
def outdentSteps (s : Scanner) : Scanner := leaveSteps s.indents s

/-- Passes blanks and a comment up to the end of the line. -/
def trail (s : Scanner) : Except Failure (Scanner × Lexeme.Trailing) :=
  let t := Lexeme.trailing true 0 false false s.rest
  let s := s.advance t.length
  if t.glued then s.fail .commentTouchesToken else .ok (s, t)

/-- The text here would go on with a plain scalar that a comment on the line before has ended. -/
def resumes (s : Scanner) : Bool :=
  match s.comment, s.rest with
  | some line, c :: cs =>
    !s.inFlow && s.mark.line == line + 1 && s.indent < (s.cursor.column : Int) &&
      !documentMarkAhead (c :: cs) && !(c == ':' && gapAhead cs)
  | _, _ => false

/-- Passes what lies before the next token. -/
def toToken (s : Scanner) : Except Failure Scanner :=
  let b := Lexeme.between (!s.indents.isEmpty) s.indent 0 s.cursor.column s.cursor.fresh false false
    s.rest
  let s := s.advance b.length
  if b.tab then s.fail .tabIndentation
  else if s.resumes then s.fail .plainInterrupted
  else .ok { s with keyAllowed := s.keyAllowed || (b.crossed && !s.inFlow), comment := none }

/-- Ends a mapping of one pair at a comma or bracket of the sequence around it. -/
def endPair (s : Scanner) : Scanner :=
  match s.flows with
  | f :: fs =>
    if f.pair then
      { s.emit .flowMappingEnd s.mark with
        flows := { f with pair := false } :: fs
        braced := false }
    else s
  | [] => s

/-- The colon that comes makes an entry of a flow sequence a mapping of one pair. -/
def beginsPair (s : Scanner) : Bool :=
  match s.flows with
  | f :: _ => f.sequence && !s.braced
  | [] => false

def markPair (s : Scanner) : Scanner :=
  match s.flows with
  | f :: fs => { s with flows := { f with pair := true } :: fs }
  | [] => s

end Scanner
end YamlCodec.Token
