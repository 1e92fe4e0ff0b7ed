import YamlCodec.Source.Class
import YamlCodec.Source.Fault
import YamlCodec.Text.Digit

/-!
# Tags

A tag is a whole address between angle brackets, or a handle and a suffix. Bytes of UTF-8 may be
written as a percent sign and two hexadecimal digits.
-/

set_option autoImplicit false

namespace YamlCodec.Lexeme.Tag
open YamlCodec.Source YamlCodec.Text

/-- One byte written with a percent sign. -/
def byte? : List Char → Option Nat
  | '%' :: a :: b :: _ => Digit.number? 16 [a, b]
  | _ => none

/-- Appends the six bits of each further byte to a code. -/
def further : Nat → Nat → List Char → Option Nat
  | 0, code, _ => some code
  | n + 1, code, cs =>
    match byte? cs with
    | some b => if b / 64 = 2 then further n (code * 64 + b % 64) (cs.drop 3) else none
    | none => none

/-- Number of further bytes after a first one, and the bits that it gives. -/
def first? (b : Nat) : Option (Nat × Nat) :=
  if b < 0x80 then some (0, b)
  else if b / 32 = 6 then some (1, b % 32)
  else if b / 16 = 14 then some (2, b % 16)
  else if b / 8 = 30 then some (3, b % 8)
  else none

/-- A character written as bytes, and how many characters that takes. -/
def escaped? (cs : List Char) : Option (Char × Nat) := do
  let b ← byte? cs
  let (n, bits) ← first? b
  let code ← further n bits (cs.drop 3)
  if code.isValidChar then some (Char.ofNat code, 3 * (n + 1)) else none

/-- Reads characters of a class, escapes resolved, passing over the next `skip` ones: the text in
reverse and its length. -/
def address (allowed : Char → Bool) (skip : Nat) (taken : List Char) (length : Nat) :
    List Char → Except Fault (List Char × Nat)
  | [] => .ok (taken, length)
  | c :: cs =>
    match skip with
    | skip + 1 => address allowed skip taken (length + 1) cs
    | 0 =>
      if c == '%' && allowed c then
        match escaped? (c :: cs) with
        | some (x, n) => address allowed (n - 1) (x :: taken) (length + 1) cs
        | none => .error .tagEscape
      else if allowed c then address allowed 0 (c :: taken) (length + 1) cs
      else .ok (taken, length)

/-- A handle and a suffix as they are written; a whole address has no handle. -/
structure Written where
  handle : List Char
  suffix : List Char
  length : Nat

/-- An exclamation mark, a word, and perhaps a second mark. -/
def handle (cs : List Char) : List Char :=
  let word := (cs.drop 1).takeWhile isWord
  let rest := cs.drop (1 + word.length)
  '!' :: word ++ (if rest.head? == some '!' then ['!'] else [])

/-- The handle is a name between two marks. -/
def isNamed (h : List Char) : Bool := 2 ≤ h.length && h.getLast? == some '!'

/-- Reads a tag from its exclamation mark on. Only after the handle `!!` may the suffix be empty. -/
def read (cs : List Char) : Except Fault Written :=
  if (cs.drop 1).head? == some '<' then
    match address isAddress 0 [] 0 (cs.drop 2) with
    | .error e => .error e
    | .ok (taken, n) =>
      if (cs.drop (n + 2)).head? == some '>' then .ok ⟨[], taken.reverse, n + 3⟩
      else .error .tagUnterminated
  else
    let h := handle cs
    match address isTagChar 0 [] 0 (cs.drop h.length) with
    | .error e => .error e
    | .ok (taken, n) =>
      if isNamed h then
        if n == 0 && h.length != 2 then .error .tagAddress
        else .ok ⟨h, taken.reverse, h.length + n⟩
      else
        let suffix := h.drop 1 ++ taken.reverse
        if suffix.isEmpty then .ok ⟨[], ['!'], h.length + n⟩
        else .ok ⟨['!'], suffix, h.length + n⟩

end YamlCodec.Lexeme.Tag
