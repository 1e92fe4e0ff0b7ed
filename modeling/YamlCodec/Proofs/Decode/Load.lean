import YamlCodec.Proofs.Budget.Counts

/-!
# What a tree counts as

What the events that tell a tree add to the counts, by recursion over the tree. Events that stand for no
part add to the number of events and of documents only.
-/

set_option autoImplicit false

namespace YamlCodec
open Decode

/-- The event that a part stands for. -/
def Decode.Part.Kind.event : Part.Kind → Event
  | .scalar text style tag => .scalar text style tag
  | .alias => .alias
  | .sequenceStart => .sequenceStart
  | .sequenceEnd => .sequenceEnd
  | .mappingStart => .mappingStart
  | .mappingEnd => .mappingEnd

theorem Decode.Part.ofEvent_event (k : Part.Kind) : Part.ofEvent? k.event = some k := by
  cases k <;> rfl

theorem Decode.Part.ofEvent_eq_some {e : Event} {k : Part.Kind} (h : Part.ofEvent? e = some k) :
    e = k.event := by
  cases e <;> simp [Part.ofEvent?] at h <;> subst h <;> rfl

namespace Counts

/-- Counts with more events that stand for no part. -/
def mark (c : Counts) (events documents : Nat) : Counts :=
  { c with events := c.events + events, documents := c.documents + documents }

theorem mark_mark (c : Counts) (n d n' d' : Nat) :
    (c.mark n d).mark n' d' = c.mark (n + n') (d + d') := by
  simp only [mark, Nat.add_assoc]

theorem add_mark (c : Counts) (n d : Nat) (e : Event) : (c.mark n d).add e = (c.add e).mark n d := by
  cases e <;> simp only [mark, add, Counts.mk.injEq, and_true, true_and] <;> omega

theorem addAll_mark (c : Counts) (n d : Nat) (es : List Event) :
    (c.mark n d).addAll es = (c.addAll es).mark n d := by
  induction es generalizing c with
  | nil => rfl
  | cons e es ih => rw [addAll_cons, add_mark, ih, addAll_cons]

theorem add_of_none {e : Event} (h : Part.ofEvent? e = none) (c : Counts) :
    ∃ n d, c.add e = c.mark n d := by
  cases e <;> simp [Part.ofEvent?] at h
  case documentStart => exact ⟨1, 1, rfl⟩
  all_goals exact ⟨1, 0, rfl⟩

/-- Events count as the parts they stand for, but for the number of events and of documents. -/
theorem addAll_kinds (c : Counts) (es : List Event) :
    ∃ n d, c.addAll es =
      (c.addAll ((es.filterMap Part.ofEvent?).map Part.Kind.event)).mark n d := by
  induction es generalizing c with
  | nil => exact ⟨0, 0, rfl⟩
  | cons e es ih =>
    cases hk : Part.ofEvent? e with
    | none =>
      obtain ⟨n, d, he⟩ := add_of_none hk c
      obtain ⟨n', d', hes⟩ := ih c
      refine ⟨n' + n, d' + d, ?_⟩
      rw [addAll_cons, he, addAll_mark, hes, List.filterMap_cons, hk, mark_mark]
    | some k =>
      obtain ⟨n, d, hes⟩ := ih (c.add e)
      refine ⟨n, d, ?_⟩
      rw [addAll_cons, hes, List.filterMap_cons, hk, List.map_cons, addAll_cons,
        Part.ofEvent_eq_some hk]

end Counts

/-- What nodes that stand side by side add to counts; the depth is that of the deepest one. -/
structure Load where
  events : Nat
  nodes : Nat
  aliases : Nat
  bytes : Nat
  depth : Nat

namespace Load

def none : Load := ⟨0, 0, 0, 0, 0⟩

def scalar (text : String) : Load := ⟨1, 1, 0, text.utf8ByteSize, 0⟩

def reference : Load := ⟨1, 0, 1, 0, 0⟩

def beside (a b : Load) : Load :=
  ⟨a.events + b.events, a.nodes + b.nodes, a.aliases + b.aliases, a.bytes + b.bytes,
    max a.depth b.depth⟩

/-- The load of a collection by that of what is in it. -/
def collection (a : Load) : Load :=
  { a with events := a.events + 2, nodes := a.nodes + 1, depth := a.depth + 1 }

end Load

namespace Decode.Tree

mutual

def load : Tree → Load
  | scalar text _ _ => .scalar text
  | .alias => .reference
  | sequence items => (itemLoad items).collection
  | mapping entries => (entryLoad entries).collection

def itemLoad : List Tree → Load
  | [] => .none
  | t :: rest => (load t).beside (itemLoad rest)

def entryLoad : List (Tree × Tree) → Load
  | [] => .none
  | (k, t) :: rest => (load k).beside ((load t).beside (entryLoad rest))

end

end Decode.Tree

namespace Counts

/-- Counts after nodes of this load. -/
def bear (c : Counts) (l : Load) : Counts :=
  { c with
    events := c.events + l.events
    nodes := c.nodes + l.nodes
    aliases := c.aliases + l.aliases
    bytes := c.bytes + l.bytes
    maxDepth := max c.maxDepth (c.depth + l.depth) }

theorem bear_bear (c : Counts) (a b : Load) : (c.bear a).bear b = c.bear (a.beside b) := by
  simp only [bear, Load.beside, Counts.mk.injEq, true_and]
  omega

theorem bear_none {c : Counts} (h : c.depth ≤ c.maxDepth) : c.bear .none = c := by
  have hmax : max c.maxDepth c.depth = c.maxDepth := by omega
  simp only [bear, Load.none, Nat.add_zero, hmax]

theorem bear_depth_le {c : Counts} (h : c.depth ≤ c.maxDepth) (l : Load) :
    (c.bear l).depth ≤ (c.bear l).maxDepth := by
  simp only [bear]
  omega

theorem add_sequenceStart_depth_le (c : Counts) :
    (c.add .sequenceStart).depth ≤ (c.add .sequenceStart).maxDepth := by
  simp only [add]
  omega

/-- Counts after a collection: its start, what is in it, and its end. -/
theorem bear_collection (c : Counts) (l : Load) :
    ((c.add .sequenceStart).bear l).add .sequenceEnd = c.bear l.collection := by
  simp only [bear, add, Load.collection, Counts.mk.injEq, and_true, true_and]
  omega

theorem bear_scalar {c : Counts} (h : c.depth ≤ c.maxDepth) (text : String) (style : Scalar.Style)
    (tag : Option String) : c.add (.scalar text style tag) = c.bear (.scalar text) := by
  simp only [bear, add, Load.scalar, Counts.mk.injEq, and_true, true_and]
  omega

theorem bear_reference {c : Counts} (h : c.depth ≤ c.maxDepth) : c.add .alias = c.bear .reference := by
  simp only [bear, add, Load.reference, Counts.mk.injEq, true_and]
  omega

/-- Counts after the events of parts. -/
def addParts (c : Counts) (ks : List Part.Kind) : Counts := c.addAll (ks.map Part.Kind.event)

theorem addParts_append (c : Counts) (ks ls : List Part.Kind) :
    c.addParts (ks ++ ls) = (c.addParts ks).addParts ls := by
  rw [addParts, List.map_append, addAll_append]
  rfl

mutual

/-- The events that tell a tree add its load. -/
theorem addParts_tree (t : Tree) {c : Counts} (h : c.depth ≤ c.maxDepth) :
    c.addParts t.kinds = c.bear t.load := by
  match t with
  | .scalar text style tag => exact bear_scalar h text style tag
  | .alias => exact bear_reference h
  | .sequence items =>
    have hitems := addParts_items items (add_sequenceStart_depth_le c)
    rw [Tree.load, ← bear_collection, ← hitems, Tree.kinds, ← List.singleton_append,
      addParts_append, addParts_append]
    rfl
  | .mapping entries =>
    have hentries := addParts_entries entries (add_sequenceStart_depth_le c)
    rw [Tree.load, ← bear_collection, ← hentries, Tree.kinds, ← List.singleton_append,
      addParts_append, addParts_append]
    rfl

theorem addParts_items (items : List Tree) {c : Counts} (h : c.depth ≤ c.maxDepth) :
    c.addParts (Tree.itemKinds items) = c.bear (Tree.itemLoad items) := by
  match items with
  | [] => exact (bear_none h).symm
  | t :: rest =>
    rw [Tree.itemKinds, addParts_append, addParts_tree t h,
      addParts_items rest (bear_depth_le h _), bear_bear, Tree.itemLoad]

theorem addParts_entries (entries : List (Tree × Tree)) {c : Counts} (h : c.depth ≤ c.maxDepth) :
    c.addParts (Tree.entryKinds entries) = c.bear (Tree.entryLoad entries) := by
  match entries with
  | [] => exact (bear_none h).symm
  | (k, t) :: rest =>
    rw [Tree.entryKinds, addParts_append, addParts_append, addParts_tree k h,
      addParts_tree t (bear_depth_le h _),
      addParts_entries rest (bear_depth_le (bear_depth_le h _) _), bear_bear, bear_bear,
      Tree.entryLoad]

end

/-- Counts after the start of a stream and of its first document. -/
def opened : Counts := zero.mark 2 1

end Counts

namespace Decode.Tree

/-- The events of a stream up to the end of its first root. -/
def streamEvents (t : Tree) : List Event :=
  .streamStart :: .documentStart :: t.kinds.map Part.Kind.event

theorem kinds_ne_nil (t : Tree) : t.kinds ≠ [] := by
  cases t <;> simp [kinds]

theorem filterMap_streamEvents (t : Tree) : t.streamEvents.filterMap Part.ofEvent? = t.kinds := by
  have hid : (Part.ofEvent? ∘ Part.Kind.event) = some := funext Part.ofEvent_event
  change (t.kinds.map Part.Kind.event).filterMap Part.ofEvent? = t.kinds
  rw [List.filterMap_map, hid, List.filterMap_some]

theorem addAll_streamEvents (t : Tree) :
    Counts.zero.addAll t.streamEvents = Counts.opened.bear t.load :=
  Counts.addParts_tree t (Nat.le_refl 0)

/-- The events end with a part, so that one is left at any place before their end. -/
theorem streamEvents_unfinished {t : Tree} {before after : List Event} {e : Event}
    (h : t.streamEvents = before ++ e :: after) : (e :: after).filterMap Part.ofEvent? ≠ [] := by
  have hkinds := t.filterMap_streamEvents
  match before with
  | [] =>
    rw [h] at hkinds
    exact fun hnil => t.kinds_ne_nil (hkinds.symm.trans hnil)
  | [_] =>
    obtain ⟨rfl, hrest⟩ := List.cons.inj h
    rw [streamEvents, hrest] at hkinds
    exact fun hnil => t.kinds_ne_nil (hkinds.symm.trans hnil)
  | _ :: _ :: before =>
    have hrest := (List.cons.inj (List.cons.inj h).2).2
    have hmem : e ∈ t.kinds.map Part.Kind.event := by
      rw [hrest]
      exact List.mem_append_right _ List.mem_cons_self
    obtain ⟨k, _, rfl⟩ := List.mem_map.mp hmem
    rw [List.filterMap_cons, Part.ofEvent_event]
    exact List.cons_ne_nil k _

end Decode.Tree
end YamlCodec
