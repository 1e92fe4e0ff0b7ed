/-!
# Character classes of the source text
-/

set_option autoImplicit false

namespace YamlCodec.Source

def isBreak (c : Char) : Bool := c == '\n' || c == '\r'

def isBlank (c : Char) : Bool := c == ' ' || c == '\t'

/-- Characters that structure flow collections. -/
def isFlow (c : Char) : Bool := [',', '[', ']', '{', '}'].contains c

/-- ASCII letters and digits, the hyphen and the underscore. -/
def isWord (c : Char) : Bool := c.isAlphanum || c == '-' || c == '_'

/-- Characters that may stand in the address of a tag. -/
def isAddress (c : Char) : Bool :=
  isWord c || "#;/?:@&=+$,_.!~*'()[]%".toList.contains c

/-- Characters that may stand in a tag after its handle. -/
def isTagChar (c : Char) : Bool := isAddress c && !isFlow c && c != '!'

/-- Characters that may stand in the name of an anchor. -/
def isAnchorChar (c : Char) : Bool := !isBlank c && !isBreak c && !isFlow c && c != '\ufeff'

/-- The line ends here. -/
def lineEnds : List Char → Bool
  | [] => true
  | c :: _ => isBreak c

/-- A blank, a line break or the end comes next. -/
def gapAhead : List Char → Bool
  | [] => true
  | c :: _ => isBlank c || isBreak c

/-- A flow indicator comes next. -/
def flowAhead : List Char → Bool
  | [] => false
  | c :: _ => isFlow c

/-- Three times the same character and then a gap. -/
def tripleAhead (mark : Char) : List Char → Bool
  | a :: b :: c :: rest => a == mark && b == mark && c == mark && gapAhead rest
  | _ => false

def documentStartAhead (cs : List Char) : Bool := tripleAhead '-' cs

def documentEndAhead (cs : List Char) : Bool := tripleAhead '.' cs

/-- A document start or end mark comes next. -/
def documentMarkAhead (cs : List Char) : Bool := documentStartAhead cs || documentEndAhead cs

/-- Length of the line break that comes next. -/
def breakLength : List Char → Nat
  | '\r' :: '\n' :: _ => 2
  | c :: _ => if isBreak c then 1 else 0
  | [] => 0

end YamlCodec.Source
