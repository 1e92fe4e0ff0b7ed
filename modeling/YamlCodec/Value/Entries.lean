import YamlCodec.Value.Basic

/-!
# Entries of a mapping

A key that is inserted again keeps its first position and takes the new value, so the keys of a
mapping built by insertion are distinct.
-/

set_option autoImplicit false

namespace YamlCodec.Entries

/-- The value of a key. -/
def get? (entries : Entries) (key : String) : Option Value :=
  match entries with
  | [] => none
  | (k, v) :: rest => if k = key then some v else get? rest key

/-- Sets the value of a key, in place if the key is there and at the end otherwise. -/
def insert (entries : Entries) (key : String) (value : Value) : Entries :=
  match entries with
  | [] => [(key, value)]
  | (k, v) :: rest => if k = key then (k, value) :: rest else (k, v) :: insert rest key value

/-- Inserts pairs one after the other. -/
def insertAll (entries : Entries) (pairs : List (String × Value)) : Entries :=
  pairs.foldl (fun es p => es.insert p.1 p.2) entries

def keys (entries : Entries) : List String := entries.map Prod.fst

end YamlCodec.Entries
