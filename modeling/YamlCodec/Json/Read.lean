import YamlCodec.Json.Numbers
import YamlCodec.Text.CodeUnit
import YamlCodec.Text.Digit
import YamlCodec.Value.Datum

/-!
# Reading JSON text

A number without fraction and exponent that 64 bits hold is an integer, with a sign only if it is
negative; minus zero and all others are binary64, and one past the finite range is an error. Containers
may nest 127 deep.
-/

set_option autoImplicit false

namespace YamlCodec.Json
open YamlCodec.Text

def isSpace (c : Char) : Bool := c == ' ' || c == '\t' || c == '\n' || c == '\r'

def skipSpace (cs : List Char) : List Char := cs.dropWhile isSpace

/-- The character of a one-letter escape. -/
def letter? (c : Char) : Option Char :=
  match c with
  | '"' => some '"'
  | '\\' => some '\\'
  | '/' => some '/'
  | 'b' => some '\x08'
  | 'f' => some '\x0c'
  | 'n' => some '\n'
  | 'r' => some '\r'
  | 't' => some '\t'
  | _ => none

/-- The escape after a backslash: its character, and how many characters it takes. -/
def readEscape? : List Char → Option (Char × Nat)
  | [] => none
  | c :: cs =>
    match letter? c with
    | some x => some (x, 1)
    | none => if c == 'u' then (CodeUnit.read? cs).map fun r => (r.1, r.2 + 1) else none

/-- The text of a string after its opening quote, `skip` characters being passed over. -/
def readString? (skip : Nat) (taken : List Char) : List Char → Option (String × List Char)
  | [] => none
  | c :: cs =>
    match skip with
    | skip + 1 => readString? skip taken cs
    | 0 =>
      if c == '"' then some (String.ofList taken.reverse, cs)
      else if c == '\\' then
        match readEscape? cs with
        | some (x, n) => readString? n (x :: taken) cs
        | none => none
      else if c.toNat < 0x20 then none
      else readString? 0 (c :: taken) cs

/-- Digits before the point: one zero, or a run that does not begin with one. -/
def readWhole? (cs : List Char) : Option (List Char × List Char) :=
  let digits := Digit.span 10 cs
  match digits.1 with
  | [] => none
  | ['0'] => some digits
  | '0' :: _ => none
  | _ => some digits

/-- A point and at least one digit, if there is a point. -/
def readFraction? : List Char → Option (List Char × List Char)
  | '.' :: cs =>
    let digits := Digit.span 10 cs
    if digits.1.isEmpty then none else some digits
  | cs => some ([], cs)

/-- The digits of an exponent after its letter. -/
def readPower? (cs : List Char) : Option (Option Int × List Char) :=
  let negative := cs.head? == some '-'
  let digits := Digit.span 10 (if negative || cs.head? == some '+' then cs.drop 1 else cs)
  (Digit.number? 10 digits.1).map fun n => (some (if negative then -(n : Int) else n), digits.2)

/-- An exponent, if there is one. -/
def readExponent? : List Char → Option (Option Int × List Char)
  | 'e' :: cs => readPower? cs
  | 'E' :: cs => readPower? cs
  | cs => some (none, cs)

/-- An integer literal that 64 bits hold. -/
def ofInteger? (negative : Bool) (digits : Nat) : Option Datum :=
  if negative then
    if 0 < digits ∧ digits ≤ 0x8000000000000000 then some (.signed (Int64.ofInt (-(digits : Int))))
    else none
  else if digits < 0x10000000000000000 then some (.unsigned (UInt64.ofNat digits)) else none

/-- A binary64 number, unless it is past the finite range. -/
def finite? (d : Double) : Option Datum :=
  match d with
  | .finite _ _ => some (.double d)
  | _ => none

/-- The key of a member, and what is behind its colon. -/
def readKey? (cs : List Char) : Option (String × List Char) :=
  match skipSpace cs with
  | '"' :: rest =>
    match readString? 0 [] rest with
    | none => none
    | some (k, rest) =>
      match skipSpace rest with
      | ':' :: rest => some (k, rest)
      | _ => none
  | _ => none

/-- Containers that may be open at once. -/
def maxNesting : Nat := 127

section
variable (num : Numbers)

/-- A number by its sign, digits and exponent. -/
def number? (negative : Bool) (whole fraction : List Char) (exponent : Option Int) :
    Option Datum := do
  let digits ← Digit.number? 10 (whole ++ fraction)
  let integer? := if fraction.isEmpty && exponent.isNone then ofInteger? negative digits else none
  match integer? with
  | some d => some d
  | none => finite? (num.round negative digits (exponent.getD 0 - fraction.length))

/-- A number after its sign. -/
def readNumber? (negative : Bool) (cs : List Char) : Option (Datum × List Char) := do
  let whole ← readWhole? cs
  let fraction ← readFraction? whole.2
  let exponent ← readExponent? fraction.2
  return (← number? num negative whole.1 fraction.1 exponent.1, exponent.2)

mutual

/-- Data inside `depth` containers. -/
def readDatum? (depth : Nat) : Nat → List Char → Option (Datum × List Char)
  | 0, _ => none
  | fuel + 1, cs =>
    match skipSpace cs with
    | 'n' :: 'u' :: 'l' :: 'l' :: rest => some (.unit, rest)
    | 't' :: 'r' :: 'u' :: 'e' :: rest => some (.bool true, rest)
    | 'f' :: 'a' :: 'l' :: 's' :: 'e' :: rest => some (.bool false, rest)
    | '"' :: rest => (readString? 0 [] rest).map fun r => (.string r.1, r.2)
    | '[' :: rest =>
      if maxNesting ≤ depth then none
      else
        match skipSpace rest with
        | ']' :: rest => some (.sequence [], rest)
        | rest => readItems? (depth + 1) fuel [] rest
    | '{' :: rest =>
      if maxNesting ≤ depth then none
      else
        match skipSpace rest with
        | '}' :: rest => some (.map [], rest)
        | rest => readMembers? (depth + 1) fuel [] rest
    | '-' :: rest => readNumber? num true rest
    | rest => readNumber? num false rest

/-- The items of a list up to its bracket, those before in reverse. -/
def readItems? (depth : Nat) : Nat → List Datum → List Char → Option (Datum × List Char)
  | 0, _, _ => none
  | fuel + 1, items, cs =>
    match readDatum? depth fuel cs with
    | none => none
    | some (d, rest) =>
      match skipSpace rest with
      | ',' :: rest => readItems? depth fuel (d :: items) rest
      | ']' :: rest => some (.sequence (d :: items).reverse, rest)
      | _ => none

/-- The members of an object up to its brace, those before in reverse. -/
def readMembers? (depth : Nat) :
    Nat → List (String × Datum) → List Char → Option (Datum × List Char)
  | 0, _, _ => none
  | fuel + 1, members, cs =>
    match readKey? cs with
    | none => none
    | some (k, rest) =>
      match readDatum? depth fuel rest with
      | none => none
      | some (d, rest) =>
        match skipSpace rest with
        | ',' :: rest => readMembers? depth fuel ((k, d) :: members) rest
        | '}' :: rest => some (.map ((k, d) :: members).reverse, rest)
        | _ => none

end

/-- The data of a whole text. -/
def parse? (text : String) : Option Datum :=
  match readDatum? num 0 (text.length + 1) text.toList with
  | some (d, rest) => if (skipSpace rest).isEmpty then some d else none
  | none => none

/-- Reads a whole text as one value. -/
def read? (text : String) : Option Value := (parse? num text).map Datum.value

end

end YamlCodec.Json
