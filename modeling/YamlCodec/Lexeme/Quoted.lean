import YamlCodec.Source.Class
import YamlCodec.Lexeme.Escape

/-!
# Quoted scalars

In single quotes a quote is written twice; in double quotes a backslash begins an escape. Blanks
around a line break are dropped, one line break becomes a space and more of them one less; a line
break after a backslash stands for nothing.
-/

set_option autoImplicit false

namespace YamlCodec.Lexeme.Quoted
open YamlCodec.Source

inductive Quote where
  | single
  | double
  deriving DecidableEq

def Quote.char : Quote → Char
  | .single => '\''
  | .double => '"'

/-- What was read since the last character of the text. -/
inductive Gap where
  /-- Blanks of one line, in reverse. -/
  | inline (blanks : List Char)
  /-- A line break that may stand for a space, unless it was escaped, further ones, and the column
  after them. -/
  | folded (space : Bool) (further column : Nat)

/-- What stands for a gap in the text, in reverse. -/
def Gap.text : Gap → List Char
  | .inline blanks => blanks
  | .folded space 0 _ => if space then [' '] else []
  | .folded _ n _ => List.replicate n '\n'

/-- The gap after one more blank; a tab must not indent. -/
def Gap.blank (indent : Int) (c : Char) : Gap → Except Fault Gap
  | .inline blanks => .ok (.inline (c :: blanks))
  | .folded space further column =>
    if c == '\t' && (column : Int) < indent then .error .tabIndentation
    else .ok (.folded space further (column + 1))

/-- The gap after one more line break. -/
def Gap.lineBreak : Gap → Gap
  | .inline _ => .folded true 0 0
  | .folded space further _ => .folded space (further + 1) 0

/-- A line that goes on with this text must not begin with a document mark. In block context it has
to be indented too, unless the break before it was escaped or it begins with a quote. -/
def Gap.check (quote : Quote) (flow : Bool) (indent : Int) (cs : List Char) :
    Gap → Except Fault Unit
  | .inline _ => .ok ()
  | .folded space _ column =>
    if column == 0 && documentMarkAhead cs then .error .quoteHoldsDocumentMark
    else if space && !flow && cs.head? != some quote.char && (column : Int) ≤ indent then
      .error .quoteIndentation
    else .ok ()

/-- Reads up to the closing quote, passing over the next `skip` characters: the text in reverse and
the number of characters read. -/
def body (quote : Quote) (flow : Bool) (indent : Int) (skip : Nat) (taken : List Char) (gap : Gap)
    (length : Nat) : List Char → Except Fault (List Char × Nat)
  | [] => .error .quoteUnclosed
  | c :: cs =>
    match skip with
    | skip + 1 => body quote flow indent skip taken gap (length + 1) cs
    | 0 =>
      if isBlank c then
        match gap.blank indent c with
        | .ok g => body quote flow indent 0 taken g (length + 1) cs
        | .error e => .error e
      else if isBreak c then
        if c == '\r' && cs.head? == some '\n' then
          body quote flow indent 0 taken gap (length + 1) cs
        else body quote flow indent 0 taken gap.lineBreak (length + 1) cs
      else
        match gap.check quote flow indent (c :: cs) with
        | .error e => .error e
        | .ok () =>
          if c == quote.char then
            if quote == .single && cs.head? == some '\'' then
              body quote flow indent 1 ('\'' :: (gap.text ++ taken)) (.inline []) (length + 1) cs
            else .ok (gap.text ++ taken, length + 1)
          else if quote == .double && c == '\\' then
            if 0 < breakLength cs then
              body quote flow indent (breakLength cs) (gap.text ++ taken) (.folded false 0 0)
                (length + 1) cs
            else
              match Escape.read cs with
              | .ok (x, n) =>
                body quote flow indent n (x :: (gap.text ++ taken)) (.inline []) (length + 1) cs
              | .error e => .error e
          else body quote flow indent 0 (c :: (gap.text ++ taken)) (.inline []) (length + 1) cs

/-- Reads a quoted scalar after its opening quote: its text and length. -/
def read (quote : Quote) (flow : Bool) (indent : Int) (cs : List Char) :
    Except Fault (List Char × Nat) :=
  match body quote flow indent 0 [] (.inline []) 0 cs with
  | .ok (taken, length) => .ok (taken.reverse, length)
  | .error e => .error e

end YamlCodec.Lexeme.Quoted
