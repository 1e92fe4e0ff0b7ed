import YamlCodec.Writer.Session

/-!
# Nodes as they are told to a writer

A tree of scalars, sequences and mappings with scalar keys, and the events that tell it. A sentence
is what a writer is told from the start of a stream to its end: any number of documents, each of one
node.
-/

set_option autoImplicit false

namespace YamlCodec.Writer

/-- The text of a key with the way it is presented. -/
abbrev Key := String × Presentation

inductive Node where
  | scalar (text : String) (p : Presentation)
  | sequence (items : List Node)
  | mapping (entries : List (Key × Node))

namespace Node

mutual

def events : Node → List Event
  | scalar text p => [.scalar text p]
  | sequence items => .sequenceStart :: (itemEvents items ++ [.sequenceEnd])
  | mapping entries => .mappingStart :: (entryEvents entries ++ [.mappingEnd])

def itemEvents : List Node → List Event
  | [] => []
  | n :: rest => events n ++ itemEvents rest

def entryEvents : List (Key × Node) → List Event
  | [] => []
  | (k, n) :: rest => .scalar k.1 k.2 :: (events n ++ entryEvents rest)

end

theorem itemEvents_append (xs ys : List Node) :
    itemEvents (xs ++ ys) = itemEvents xs ++ itemEvents ys := by
  induction xs with
  | nil => rfl
  | cons n xs ih => simp [itemEvents, ih]

theorem entryEvents_append (xs ys : List (Key × Node)) :
    entryEvents (xs ++ ys) = entryEvents xs ++ entryEvents ys := by
  induction xs with
  | nil => rfl
  | cons e xs ih => simp [entryEvents, ih]

/-- A document of one node. -/
def documentEvents (root : Node) : List Event :=
  .documentStart :: (root.events ++ [.documentEnd])

end Node

/-- A stream of documents, each with its root. -/
def streamEvents (roots : List Node) : List Event :=
  .streamStart :: (roots.flatMap Node.documentEvents ++ [.streamEnd])

/-- What a writer may be told from the start of a stream to its end. -/
def IsSentence (es : List Event) : Prop := ∃ roots, es = streamEvents roots

namespace Session

/-- Feeds events one after the other, none of which may fail. -/
def feedEach (o : WriterOptions) (s : Session) : List Event → Option Session
  | [] => some s
  | e :: es =>
    match s.feed o e with
    | (t, none) => feedEach o t es
    | (_, some _) => none

/-- What is fed without failing is fed so up to every point of it. -/
theorem feedEach_append {o : WriterOptions} {s u : Session} {as bs : List Event}
    (h : s.feedEach o (as ++ bs) = some u) : ∃ t, s.feedEach o as = some t ∧ t.feedEach o bs = some u := by
  induction as generalizing s with
  | nil => exact ⟨s, rfl, h⟩
  | cons a as ih =>
    rw [List.cons_append, feedEach] at h
    split at h
    · rename_i t hfeed
      rw [feedEach, hfeed]
      exact ih h
    · cases h

end Session
end YamlCodec.Writer
