import YamlCodec.Source.Class

/-!
# The end of a line, and what lies between tokens

After a token a line may go on with blanks and a comment; a comment needs a blank before it. Between
tokens lie blanks, comments and line breaks, and a tab must not indent the content of a block.
-/

set_option autoImplicit false

namespace YamlCodec.Lexeme
open YamlCodec.Source

/-- Number of characters before the end of the line. -/
def lineLength (cs : List Char) : Nat := (cs.takeWhile fun c => !isBreak c).length

/-- Blanks and a comment after a token. -/
structure Trailing where
  length : Nat
  tab : Bool
  space : Bool
  /-- A comment stands directly after the token. -/
  glued : Bool

/-- Reads blanks, tabs only if they count as such, and a comment. -/
def trailing (tabs : Bool) (length : Nat) (tab space : Bool) : List Char → Trailing
  | [] => ⟨length, tab, space, false⟩
  | c :: cs =>
    if c == ' ' then trailing tabs (length + 1) tab true cs
    else if c == '\t' && tabs then trailing tabs (length + 1) true space cs
    else if c == '#' then
      if tab || space then ⟨length + 1 + lineLength cs, tab, space, false⟩
      else ⟨length, tab, space, true⟩
    else ⟨length, tab, space, false⟩

/-- Only blanks and a comment are left on the line. -/
def blankLine : List Char → Bool
  | [] => true
  | c :: cs => isBreak c || c == '#' || (isBlank c && blankLine cs)

/-- What lies before the next token. -/
structure Between where
  length : Nat
  /-- A line break lies before the next token. -/
  crossed : Bool
  /-- A tab indents content of a block. -/
  tab : Bool

/-- Reads what lies before the next token, tabs being refused left of `indent` if `block` holds. -/
def between (block : Bool) (indent : Int) (length column : Nat) (fresh comment crossed : Bool) :
    List Char → Between
  | [] => ⟨length, crossed, false⟩
  | c :: cs =>
    if isBreak c then between block indent (length + 1) 0 true false true cs
    else if comment then between block indent (length + 1) (column + 1) fresh true crossed cs
    else if isBlank c then
      if c == '\t' && block && fresh && (column : Int) < indent && !blankLine cs then
        ⟨length, crossed, true⟩
      else between block indent (length + 1) (column + 1) fresh false crossed cs
    else if c == '#' then between block indent (length + 1) (column + 1) fresh true crossed cs
    else ⟨length, crossed, false⟩

/-- Reads the spaces, line breaks and comments after the mark of an explicit key. -/
def afterKey (length : Nat) (comment crossed : Bool) : List Char → Between
  | [] => ⟨length, crossed, false⟩
  | c :: cs =>
    if isBreak c then afterKey (length + 1) false true cs
    else if comment then afterKey (length + 1) true crossed cs
    else if c == ' ' then afterKey (length + 1) false crossed cs
    else if c == '#' then afterKey (length + 1) true crossed cs
    else ⟨length, crossed, c == '\t'⟩

end YamlCodec.Lexeme
