import YamlCodec.Token.Scanner
import YamlCodec.Lexeme.Plain
import YamlCodec.Lexeme.Quoted
import YamlCodec.Lexeme.Block
import YamlCodec.Lexeme.Directive

/-!
# Scanning tokens

Each step passes what lies before the next token, closes the block collections that end there and
reads the token. Scanning ends with the text or at a fault; with a fault only the tokens that no
candidate for a key held back are given out.
-/

set_option autoImplicit false

namespace YamlCodec.Token
open YamlCodec.Source YamlCodec.Lexeme

namespace Scanner

/-- The end of the text, which counts as the start of a line. -/
def streamEnd (s : Scanner) : Except Failure Scanner := do
  let m := s.mark
  let m := if m.column == 0 then m else ⟨m.index, m.line + 1, 0⟩
  let s := { s with cursor := { s.cursor with mark := m } }
  if s.inFlow then s.fail .unclosedFlow
  else
    let s ← s.dropCandidate
    let s := (s.closeBlocks (-1)).forbidKey.emit .streamEnd m
    return { s with finished := true }

def directive (s : Scanner) : Except Failure Scanner := do
  let s ← (s.closeBlocks (-1)).dropCandidate
  let (d, n) ← s.lift (Directive.read (s.rest.drop 1))
  let kind : Kind :=
    match d with
    | .version => .version
    | .tag handle address => .tagDirective handle address
    | .other => .reserved
  return (s.forbidKey.advance (n + 1)).emit kind s.mark

def documentMark (s : Scanner) (kind : Kind) : Except Failure Scanner := do
  let s ← (s.closeBlocks (-1)).dropCandidate
  return (s.forbidKey.advance 3).emit kind s.mark

/-- Nothing but a comment may follow the end of a document on its line. -/
def documentEnd (s : Scanner) : Except Failure Scanner := do
  let s ← s.documentMark .documentEnd
  let (s, _) ← s.trail
  if lineEnds s.rest then return s else s.fail .contentAfterDocumentEnd

def flowStart (s : Scanner) (sequence : Bool) : Except Failure Scanner := do
  let m := s.mark
  let s := s.saveCandidate.indentOne
  if flowLimit ≤ s.flows.length then s.fail .flowTooDeep
  else
    let s :=
      { s with
        flows := ⟨sequence, false, s.candidate⟩ :: s.flows
        candidate := none
        braced := s.braced || !sequence }
    let (s, _) ← (s.allowKey.advance 1).trail
    return s.emit (if sequence then .flowSequenceStart else .flowMappingStart) m

def flowEnd (s : Scanner) (sequence : Bool) : Except Failure Scanner := do
  let m := s.mark
  match s.flows with
  | [] => s.fail .misplacedBracket
  | f :: fs =>
    let s := if sequence then s.endPair else s
    let s := { s with flows := fs, candidate := f.outer }
    let (s, _) ← (s.forbidKey.advance 1).trail
    let s := if s.inFlow then { s with adjacent := s.mark.index } else s
    return s.emit (if sequence then .flowSequenceEnd else .flowMappingEnd) m

def flowEntry (s : Scanner) : Except Failure Scanner := do
  let m := s.mark
  let s ← s.dropCandidate
  let (s, _) ← (s.endPair.allowKey.advance 1).trail
  return s.emit .flowEntry m

/-- An anchor or tag in the first column stands before this entry of a block sequence. -/
def afterProperty (s : Scanner) : Bool :=
  match s.tokens with
  | ⟨.anchor _, m⟩ :: _ => m.column == 0
  | ⟨.tag _ _, m⟩ :: _ => m.column == 0
  | _ => false

def blockEntry (s : Scanner) : Except Failure Scanner := do
  let m := s.mark
  if s.inFlow then s.fail .entryInFlow
  else if !s.keyAllowed then s.fail .entryNotAllowed
  else if m.column == 0 && s.afterProperty && (-1) < s.indent then s.fail .anchorBeforeEntry
  else
    let s := (s.advance 1).openBlock m.column none .blockSequenceStart m
    let (s, t) ← s.trail
    if t.tab && s.rest.head? == some '-' && gapAhead (s.rest.drop 1) then s.fail .tabAfterEntry
    else
      let s := if 0 < breakLength s.rest || flowAhead s.rest then s.indentOne else s
      let s ← s.dropCandidate
      return s.allowKey.emit .blockEntry s.mark

def explicitKey (s : Scanner) : Except Failure Scanner := do
  let m := s.mark
  if !s.inFlow && !s.keyAllowed then s.fail .keyNotAllowed
  else
    let s := s.openBlock m.column none .blockMappingStart m
    let s := { s with braced := s.braced || s.inFlow }
    let s ← s.dropCandidate
    let s := (if s.inFlow then s.forbidKey else s.allowKey).advance 1
    let b := afterKey 0 false false s.rest
    let s := s.advance b.length
    if b.length == 0 then s.fail .blankMissingAfterKey
    else if b.tab then s.fail .tabIndentation
    else return s.emit .key m

/-- Turns the candidate into a key, the tokens of its mapping and itself going before it. -/
def keyBefore (s : Scanner) (k : Candidate) (colon : Mark) (pair : Bool) :
    Except Failure Scanner :=
  let s := s.insert k.position .key k.mark
  if pair && k.mark.line < colon.line then s.fail .valueOnLaterLine
  else
    let s := if pair then s.insert k.position .flowMappingStart k.mark else s
    let s := s.openBlock k.mark.column (some k.position) .blockMappingStart k.mark
    .ok { s.indentOne.forbidKey with candidate := none }

/-- The value of a key that was explicit or is missing. -/
def valueAlone (s : Scanner) (colon : Mark) (pair : Bool) : Except Failure Scanner :=
  let s := if pair then s.emit .flowMappingStart colon else s
  if s.inFlow then .ok s.indentOne.forbidKey
  else if !s.keyAllowed then s.fail .valueNotAllowed
  else .ok (s.openBlock colon.column none .blockMappingStart colon).indentOne.allowKey

def value (s : Scanner) : Except Failure Scanner := do
  let m := s.mark
  let pair := s.beginsPair
  let s := (if pair then s.markPair else s).advance 1
  let tabbed := s.rest.head? == some '\t'
  let (s, t) ← if tabbed then s.trail else .ok (s, ⟨0, false, true, false⟩)
  if tabbed && !t.space && (s.rest.head?.any isWord) then s.fail .tabAfterValue
  else
    let s ←
      match s.candidate with
      | some k => s.keyBefore k m pair
      | none => s.valueAlone m pair
    return s.emit .value m

/-- A colon without a gap after it, which only a key in quotes or brackets may have. -/
def adjacentValue (s : Scanner) : Except Failure Scanner :=
  let next := (s.rest.drop 1).head?
  if s.mark.index != s.adjacent && (next == some '[' || next == some '{') then
    s.fail .valueTouchesCollection
  else s.value

def anchor (s : Scanner) (isAlias : Bool) : Except Failure Scanner :=
  let m := s.mark
  let s := s.saveCandidate.forbidKey
  let name := (s.rest.drop 1).takeWhile isAnchorChar
  let s := s.advance (name.length + 1)
  if name.isEmpty then s.fail .anchorNameMissing
  else .ok (s.emit (if isAlias then .alias name else .anchor name) m)

def tag (s : Scanner) : Except Failure Scanner := do
  let m := s.mark
  let s := s.saveCandidate.forbidKey
  let w ← s.lift (Tag.read s.rest)
  let s := s.advance w.length
  if gapAhead s.rest || (s.inFlow && flowAhead s.rest) then
    return s.emit (.tag w.handle w.suffix) m
  else s.fail .tagUnterminated

def blockScalar (s : Scanner) (folded : Bool) : Except Failure Scanner := do
  let s := s.saveCandidate.allowKey.outdentSteps
  let r ← s.lift (Block.read folded s.indent (s.rest.drop 1))
  let m :=
    match r.offset? with
    | some n => (s.advance (n + 1)).mark
    | none => s.mark
  let style : Scalar.Style := if folded then .folded else .literal
  return (s.advance (r.length + 1)).emit (.scalar r.text style) m

/-- A comma or a closing bracket ends an entry of a flow collection and needs no indentation. -/
def endsEntry (c : Char) : Bool := c == ',' || c == ']' || c == '}'

/-- What may follow a quoted scalar that began on a line. -/
def mayFollowQuote (s : Scanner) (line : Nat) : Bool :=
  match s.rest with
  | [] => true
  | c :: _ =>
    isBreak c || (c == ':' && (s.inFlow || s.mark.line == line)) ||
      (s.inFlow && endsEntry c)

def quotedScalar (s : Scanner) (quote : Quoted.Quote) : Except Failure Scanner := do
  let m := s.mark
  let s := s.saveCandidate.forbidKey
  let (text, n) ← s.lift (Quoted.read quote s.inFlow s.indent (s.rest.drop 1))
  let (s, _) ← (s.advance (n + 1)).trail
  if s.mayFollowQuote m.line then
    let s ← s.toToken
    let style : Scalar.Style :=
      match quote with
      | .single => .singleQuoted
      | .double => .doubleQuoted
    return { s with adjacent := s.mark.index }.emit (.scalar text style) m
  else s.fail .contentAfterQuote

def plainScalar (s : Scanner) : Except Failure Scanner := do
  let m := s.mark
  let s := s.saveCandidate.forbidKey.outdentSteps
  if s.inFlow && (m.column : Int) < s.indent + 1 then s.fail .plainIndentation
  else if s.cursor.fresh && documentMarkAhead s.rest then s.fail .plainEmpty
  else
    let r ← s.lift (Plain.read s.inFlow (s.indent + 1) [] .none 0 s.rest)
    let s := s.advance r.length
    let s := if r.crossed then s.allowKey else s
    let s := if r.commented then { s with comment := some s.mark.line } else s
    return s.emit (.scalar r.text.reverse .plain) m

/-- Reads the token that begins with `c`. -/
def token (s : Scanner) (c : Char) (cs : List Char) : Except Failure Scanner :=
  if c == '[' then s.flowStart true
  else if c == '{' then s.flowStart false
  else if c == ']' then s.flowEnd true
  else if c == '}' then s.flowEnd false
  else if c == ',' then s.flowEntry
  else if c == '-' && gapAhead cs then s.blockEntry
  else if c == '?' && gapAhead cs then s.explicitKey
  else if c == ':' && gapAhead cs then s.value
  else if c == ':' && s.inFlow && (flowAhead cs || s.mark.index == s.adjacent) then s.adjacentValue
  else if c == '*' then s.anchor true
  else if c == '&' then s.anchor false
  else if c == '!' then s.tag
  else if c == '|' && !s.inFlow then s.blockScalar false
  else if c == '>' && !s.inFlow then s.blockScalar true
  else if c == '\'' then s.quotedScalar .single
  else if c == '"' then s.quotedScalar .double
  else if c == '%' || c == '@' || c == '\x60' then s.fail (.unexpectedCharacter c)
  else s.plainScalar

/-- Passes to the next token and reads it. -/
def next (s : Scanner) : Except Failure Scanner := do
  let s ← s.toToken
  let s ← s.dropStale
  let s := s.closeBlocks s.cursor.column
  match s.rest with
  | [] => s.streamEnd
  | c :: cs =>
    let first := s.cursor.column == 0
    if first && c == '%' then s.directive
    else if first && documentStartAhead (c :: cs) then s.documentMark .documentStart
    else if first && documentEndAhead (c :: cs) then s.documentEnd
    else if (s.cursor.column : Int) < s.indent && !(s.inFlow && endsEntry c) then
      s.fail .invalidIndentation
    else s.token c cs

end Scanner

/-- Tokens, and the fault that ends them if there is one. -/
structure Stream where
  tokens : List Token
  failure : Option Failure

/-- Scans on, at most as many tokens as there may be. -/
def run : Nat → Scanner → Stream
  | 0, s => ⟨s.tokens.reverse, none⟩
  | fuel + 1, s =>
    if s.finished then ⟨s.tokens.reverse, none⟩
    else
      match s.dropStale with
      | .error f => ⟨s.released, some f⟩
      | .ok s =>
        match s.next with
        | .error f => ⟨s.released, some f⟩
        | .ok s => run fuel s

/-- Scans a text; a null character ends it. -/
def scan (text : List Char) : Stream :=
  let text := text.takeWhile fun c => c != '\x00'
  run (text.length + 2) (Scanner.start text)

end YamlCodec.Token
