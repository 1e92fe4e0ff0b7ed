import YamlCodec.Source.Class
import YamlCodec.Source.Fault
import YamlCodec.Lexeme.Trailing

/-!
# Block scalars

A header tells how the end is chomped and, if it is given, how deep the lines are indented; else the
first line with content tells that. Literal lines keep their breaks; folded ones join lines that do
not begin with a blank.
-/

set_option autoImplicit false

namespace YamlCodec.Lexeme.Block
open YamlCodec.Source

/-- What happens to line breaks at the end. -/
inductive Chomping where
  | strip
  | clip
  | keep
  deriving DecidableEq

structure Header where
  chomping : Chomping
  /-- Zero where the indentation is not given. -/
  increment : Nat
  length : Nat

def chomping? : List Char → Option Chomping
  | '+' :: _ => some .keep
  | '-' :: _ => some .strip
  | _ => none

/-- The digit that gives the indentation. -/
def increment? : List Char → Option Nat
  | c :: _ => if c.isDigit then some (c.toNat - 48) else none
  | [] => none

/-- The two indicators in either order. -/
def indicators (cs : List Char) : Header :=
  match chomping? cs with
  | some ch =>
    match increment? (cs.drop 1) with
    | some n => ⟨ch, n, 2⟩
    | none => ⟨ch, 0, 1⟩
  | none =>
    match increment? cs with
    | some n =>
      match chomping? (cs.drop 1) with
      | some ch => ⟨ch, n, 2⟩
      | none => ⟨.clip, n, 1⟩
    | none => ⟨.clip, 0, 0⟩

/-- A given indentation that is zero. -/
def zeroGiven (cs : List Char) : Bool :=
  increment? cs == some 0 || ((chomping? cs).isSome && increment? (cs.drop 1) == some 0)

/-- Reads the rest of the first line, up to its break. -/
def header (cs : List Char) : Except Fault Header :=
  let h := indicators cs
  let t := trailing true 0 false false (cs.drop h.length)
  if zeroGiven cs then .error .blockZeroIndentation
  else if t.glued then .error .commentTouchesToken
  else if lineEnds (cs.drop (h.length + t.length)) then
    .ok ⟨h.chomping, h.increment, h.length + t.length⟩
  else .error .blockHeader

/-- Empty lines and indentation before content. -/
structure Lead where
  length : Nat
  breaks : Nat
  column : Nat
  /-- Greatest indentation seen. -/
  widest : Nat

/-- Passes empty lines and all spaces before the first content. -/
def firstLead (l : Lead) : List Char → Lead
  | [] => ⟨l.length, l.breaks, l.column, max l.widest l.column⟩
  | c :: cs =>
    if c == ' ' then firstLead ⟨l.length + 1, l.breaks, l.column + 1, l.widest⟩ cs
    else if isBreak c then
      if c == '\r' && cs.head? == some '\n' then
        firstLead ⟨l.length + 1, l.breaks, l.column, l.widest⟩ cs
      else firstLead ⟨l.length + 1, l.breaks + 1, 0, max l.widest l.column⟩ cs
    else ⟨l.length, l.breaks, l.column, max l.widest l.column⟩

/-- Passes empty lines and at most `indent` spaces of a line. -/
def lead (indent : Nat) (l : Lead) : List Char → Lead
  | [] => l
  | c :: cs =>
    if c == ' ' && l.column < indent then
      lead indent ⟨l.length + 1, l.breaks, l.column + 1, l.widest⟩ cs
    else if isBreak c then
      if c == '\r' && cs.head? == some '\n' then
        lead indent ⟨l.length + 1, l.breaks, l.column, l.widest⟩ cs
      else lead indent ⟨l.length + 1, l.breaks + 1, 0, l.widest⟩ cs
    else l

/-- The lines read so far. -/
structure Lines where
  /-- Text in reverse, without the breaks after its last line. -/
  text : List Char
  length : Nat
  /-- A break follows the last line. -/
  broken : Bool
  /-- Empty lines after that break. -/
  further : Nat
  /-- The last line began with a blank. -/
  blank : Bool
  column : Nat

namespace Lines

/-- The text with the breaks before a line that begins with a blank or not, in reverse. -/
def joined (folded blank : Bool) (ls : Lines) : List Char :=
  if folded && ls.broken && !ls.blank && !blank then
    (if ls.further == 0 then [' '] else List.replicate ls.further '\n') ++ ls.text
  else List.replicate (ls.further + (if ls.broken then 1 else 0)) '\n' ++ ls.text

/-- The first character of a line. -/
def begin (folded : Bool) (c : Char) (ls : Lines) : Lines :=
  let blank := isBlank c
  ⟨c :: ls.joined folded blank, ls.length + 1, false, 0, blank, ls.column + 1⟩

/-- A further character of a line. -/
def push (c : Char) (ls : Lines) : Lines :=
  { ls with text := c :: ls.text, length := ls.length + 1, column := ls.column + 1 }

/-- The break after a line. -/
def endLine (ls : Lines) : Lines := { ls with length := ls.length + 1, broken := true, column := 0 }

/-- The break of an empty line. -/
def emptyLine (ls : Lines) : Lines :=
  { ls with length := ls.length + 1, further := ls.further + 1, column := 0 }

/-- A space of the indentation. -/
def indentSpace (ls : Lines) : Lines :=
  { ls with length := ls.length + 1, column := ls.column + 1 }

/-- A carriage return that a line feed follows. -/
def passReturn (ls : Lines) : Lines := { ls with length := ls.length + 1 }

end Lines

/-- Reads lines of the indentation; `inLine` tells that one has begun. -/
def lines (folded : Bool) (indent : Nat) (ls : Lines) (inLine : Bool) : List Char → Lines
  | [] => ls
  | c :: cs =>
    if isBreak c then
      if c == '\r' && cs.head? == some '\n' then lines folded indent ls.passReturn inLine cs
      else if inLine then lines folded indent ls.endLine false cs
      else lines folded indent ls.emptyLine false cs
    else if inLine then lines folded indent (ls.push c) true cs
    else if c == ' ' && ls.column < indent then lines folded indent ls.indentSpace false cs
    else if ls.column != indent || (indent == 0 && documentEndAhead (c :: cs)) then ls
    else lines folded indent (ls.begin folded c) true cs

/-- The whole text after chomping, `atEnd` telling that the source ends here. -/
def Lines.chomped (ls : Lines) (chomping : Chomping) (indent : Nat) (atEnd : Bool) : List Char :=
  let closed :=
    if chomping == .strip then ls.text
    else
      (if atEnd && max indent 1 ≤ ls.column then ['\n'] else []) ++
        ((if ls.broken then ['\n'] else []) ++ ls.text)
  let kept := if chomping == .keep then List.replicate ls.further '\n' ++ closed else closed
  kept.reverse

/-- A block scalar: its text, the distance to its first line if it has one, and its length. -/
structure Result where
  text : List Char
  offset? : Option Nat
  length : Nat

/-- The text of a scalar without any line, where the source ends. -/
def emptyText (chomping : Chomping) (broken : Bool) (breaks : Nat) : List Char :=
  match chomping with
  | .strip => []
  | .clip => if broken then ['\n'] else []
  | .keep =>
    if breaks == 0 then (if broken then ['\n'] else []) else List.replicate breaks '\n'

/-- The indentation of the lines: as given, or that of the first line with content. -/
def indentation (parent : Int) (increment : Nat) (l : Lead) : Nat :=
  if increment == 0 then max l.widest (parent + 1).toNat
  else if 0 ≤ parent then parent.toNat + increment
  else increment

/-- Reads a block scalar after its indicator, inside a block indented by `parent`. -/
def read (folded : Bool) (parent : Int) (cs : List Char) : Except Fault Result :=
  match header cs with
  | .error e => .error e
  | .ok h =>
    let b := breakLength (cs.drop h.length)
    let rest := cs.drop (h.length + b)
    if rest.head? == some '\t' then .error .blockTab
    else
      let l :=
        if h.increment == 0 then firstLead ⟨0, 0, 0, 0⟩ rest
        else lead (indentation parent h.increment ⟨0, 0, 0, 0⟩) ⟨0, 0, 0, 0⟩ rest
      let indent := indentation parent h.increment l
      let offset := h.length + b + l.length
      let content := rest.drop l.length
      if content.isEmpty then
        .ok ⟨emptyText h.chomping (b != 0) l.breaks, none, offset⟩
      else if l.column < indent ∧ parent < l.column then .error .blockIndentation
      else
        let ls := lines folded indent ⟨[], 0, false, l.breaks, false, l.column⟩ false content
        .ok ⟨ls.chomped h.chomping indent (content.drop ls.length).isEmpty, some offset,
          offset + ls.length⟩

end YamlCodec.Lexeme.Block
