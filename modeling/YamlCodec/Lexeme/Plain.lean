import YamlCodec.Source.Fault
import YamlCodec.Lexeme.Trailing

/-!
# Plain scalars

A plain scalar is a chain of runs without blanks. A run ends before a blank, before a colon that a
gap follows, and in flow context before a flow indicator. Between two runs of the same line their
blanks are kept; one line break becomes a space, and more of them one less.
-/

set_option autoImplicit false

namespace YamlCodec.Lexeme.Plain
open YamlCodec.Source

/-- No run goes on with this character. -/
def stops (flow : Bool) (c : Char) (cs : List Char) : Bool :=
  (c == ':' && (gapAhead cs || (flow && flowAhead cs))) || (flow && isFlow c)

/-- Blanks and line breaks since the last run. -/
structure Gap where
  breaks : Nat
  /-- Blanks since the last break, or all if there is none, in reverse. -/
  blanks : List Char
  /-- The rest of the line is empty but for a comment. -/
  skipping : Bool

namespace Gap

def none : Gap := ⟨0, [], false⟩

def isNone (g : Gap) : Bool := g.breaks == 0 && g.blanks.isEmpty

def blank (g : Gap) (c : Char) : Gap := { g with blanks := c :: g.blanks }

def lineBreak (g : Gap) : Gap := ⟨g.breaks + 1, [], false⟩

/-- Column after a gap with a line break. -/
def column (g : Gap) : Nat := g.blanks.length

/-- What stands for a gap in the text, in reverse. -/
def text (g : Gap) : List Char :=
  match g.breaks with
  | 0 => g.blanks
  | 1 => [' ']
  | n + 2 => List.replicate (n + 1) '\n'

/-- A tab here would indent a line. -/
def indents (g : Gap) (indent : Int) : Bool := g.breaks != 0 && (g.column : Int) < indent

/-- The scalar does not go on after the gap: a comment, text further out, or a line that begins
with a document mark, indented or not. -/
def ends (g : Gap) (flow : Bool) (indent : Int) (c : Char) (cs : List Char) : Bool :=
  !g.isNone &&
    (c == '#' || (!flow && g.indents indent) ||
      (g.breaks != 0 && documentMarkAhead (c :: cs)))

end Gap

/-- The text in reverse, the number of characters read, whether they end in a new line, and whether
a comment on the line of the text comes next. -/
structure Result where
  text : List Char
  length : Nat
  crossed : Bool
  commented : Bool

def finish (taken : List Char) (gap : Gap) (length : Nat) (commented : Bool) :
    Except Fault Result :=
  if taken.isEmpty then .error .plainEmpty else .ok ⟨taken, length, gap.breaks != 0, commented⟩

/-- Reads on after the text that was taken and a gap, lines being indented by `indent`. A line that
a tab indents may only hold a comment, which is passed over. -/
def read (flow : Bool) (indent : Int) (taken : List Char) (gap : Gap) (length : Nat) :
    List Char → Except Fault Result
  | [] => finish taken gap length false
  | c :: cs =>
    if isBreak c then
      if c == '\r' && cs.head? == some '\n' then read flow indent taken gap (length + 1) cs
      else read flow indent taken gap.lineBreak (length + 1) cs
    else if gap.skipping then read flow indent taken gap (length + 1) cs
    else if isBlank c then
      if c == '\t' && gap.indents indent then
        if blankLine cs then read flow indent taken { gap with skipping := true } (length + 1) cs
        else .error .plainTab
      else read flow indent taken (gap.blank c) (length + 1) cs
    else if gap.ends flow indent c cs then
      finish taken gap length (c == '#' && gap.breaks == 0 && !flow)
    else if flow && c == '-' && flowAhead cs && (taken.isEmpty || !gap.isNone) then
      .error .plainDash
    else if stops flow c cs then finish taken gap length false
    else read flow indent (c :: (gap.text ++ taken)) Gap.none (length + 1) cs

end YamlCodec.Lexeme.Plain
