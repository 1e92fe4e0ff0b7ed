import YamlCodec.Source.Fault
import YamlCodec.Text.CodeUnit

/-!
# Escapes in double quotes
-/

set_option autoImplicit false

namespace YamlCodec.Lexeme.Escape
open YamlCodec.Source YamlCodec.Text

/-- The character of a one-letter escape. -/
def letter? (c : Char) : Option Char :=
  match c with
  | '0' => some '\x00'
  | 'a' => some '\x07'
  | 'b' => some '\x08'
  | 't' => some '\t'
  | '\t' => some '\t'
  | 'n' => some '\n'
  | 'v' => some '\x0b'
  | 'f' => some '\x0c'
  | 'r' => some '\r'
  | 'e' => some '\x1b'
  | ' ' => some ' '
  | '"' => some '"'
  | '/' => some '/'
  | '\\' => some '\\'
  | 'N' => some '\u0085'
  | '_' => some '\u00a0'
  | 'L' => some '\u2028'
  | 'P' => some '\u2029'
  | _ => none

/-- The character of an escape by its code, after the letter that tells its length. -/
def coded? (c : Char) (cs : List Char) : Option (Char × Nat) :=
  if c == 'x' then ((CodeUnit.code? 2 cs).bind CodeUnit.char?).map fun x => (x, 3)
  else if c == 'u' then (CodeUnit.read? cs).map fun r => (r.1, r.2 + 1)
  else if c == 'U' then ((CodeUnit.code? 8 cs).bind CodeUnit.char?).map fun x => (x, 9)
  else none

def isCodeLetter (c : Char) : Bool := c == 'x' || c == 'u' || c == 'U'

/-- Reads the escape after a backslash: its character, and how many characters it takes. -/
def read : List Char → Except Fault (Char × Nat)
  | [] => .error .quoteUnclosed
  | c :: cs =>
    match letter? c with
    | some x => .ok (x, 1)
    | none =>
      match coded? c cs with
      | some r => .ok r
      | none => .error (if isCodeLetter c then .invalidEscapeCode else .unknownEscape)

end YamlCodec.Lexeme.Escape
