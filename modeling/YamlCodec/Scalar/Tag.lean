/-!
# Tags of the core schema

A tag is recognised by its shorthand, by its full name, and by the form in which a resolved
secondary handle stands before an exclamation mark. A verbatim tag has one more exclamation mark
in front.
-/

set_option autoImplicit false

namespace YamlCodec.Scalar

inductive CoreTag where
  | null
  | bool
  | int
  | float
  | str
  deriving DecidableEq

namespace CoreTag

def all : List CoreTag := [null, bool, int, float, str]

/-- The last part of the name of a core tag. -/
def suffix : CoreTag → String
  | null => "null"
  | bool => "bool"
  | int => "int"
  | float => "float"
  | str => "str"

/-- What the full names of all core tags begin with. -/
def namespaceText : String := "tag:yaml.org,2002:"

/-- The texts that name a core tag. -/
def spellings (t : CoreTag) : List String :=
  ["!!" ++ t.suffix, namespaceText ++ t.suffix, namespaceText ++ "!" ++ t.suffix]

/-- A verbatim core tag without its leading exclamation mark, any other tag as it is. -/
def withoutVerbatimMark (tag : List Char) : List Char :=
  match tag with
  | '!' :: rest => if namespaceText.toList.isPrefixOf rest then rest else tag
  | _ => tag

/-- The core tag that a text names. -/
def named? (tag : List Char) : Option CoreTag :=
  all.find? fun t => t.spellings.any fun s => s.toList == withoutVerbatimMark tag

end CoreTag
end YamlCodec.Scalar
