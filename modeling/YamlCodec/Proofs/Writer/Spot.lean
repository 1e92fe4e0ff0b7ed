import YamlCodec.Proofs.Writer.Layout

/-!
# Places of scalars

A scalar of a document stands within collections that are open there, whose entries before it are
complete. Wherever a writer is before a scalar of its first document, it is at such a place, and the
place tells what it has been told and what it has written.
-/

set_option autoImplicit false

namespace YamlCodec.Writer

/-- An open collection with its complete entries. In a mapping it is the value of a key that comes. -/
inductive Level where
  | items (before : List Node)
  | entry (before : List (Key × Node)) (key : Key)

/-- Where a scalar comes, in open collections of which the innermost is the first. -/
inductive Spot where
  /-- The root, an item of a sequence or the value of a key. -/
  | node (levels : List Level)
  /-- A key after others, with a mark of its own or without. -/
  | key (levels : List Level) (before : List (Key × Node)) (marked : Bool)

section
variable (o : WriterOptions)

/-- The entries of an open collection, if there are any, and the blanks before the next one. -/
def Node.opened (c : Nat) (n : Node) : List Char :=
  if n.isLeaf then [] else n.body o c ++ blanks c

/-- The text of a collection that is open, up to where its next entry begins. -/
def Node.begun (l : Lead) (c : Nat) (n : Node) : List Char :=
  written (entryStart ⟨.sequence, c, l, 0⟩) ++ n.opened o c

/-- What is written of it while no other entry has been told. -/
def Node.record (l : Lead) (c : Nat) (n : Node) : List Char :=
  if n.isLeaf then [] else n.gap l c ++ n.body o c

namespace Level

/-- The events of the collection before what comes in it. -/
def events : Level → List Event
  | items before => .sequenceStart :: Node.itemEvents before
  | entry before key => .mappingStart :: (Node.entryEvents before ++ [.scalar key.1 key.2])

/-- The column of a collection that begins within these. -/
def column : List Level → Nat
  | [] => 0
  | items _ :: ls => column ls + 2
  | entry _ _ :: ls => column ls + max 1 o.indentStep

def lead : List Level → Lead
  | [] => .lineStart
  | items _ :: _ => .inline
  | entry _ _ :: _ => .newline

/-- The column of the innermost one. The root lies within none, and no column outside of it. -/
def margin : List Level → Int
  | [] => -1
  | _ :: ls => column o ls

/-- The text up to the dash or the colon after which a node comes. -/
def text : List Level → List Char
  | [] => []
  | items before :: ls =>
    text ls ++ ((Node.sequence before).begun o (lead ls) (column o ls) ++ ['-'])
  | entry before key :: ls =>
    text ls ++ ((Node.mapping before).begun o (lead ls) (column o ls) ++ keyText (column o ls) key)

/-- The stack of a writer which has begun the entries that the place is in. -/
def frames : List Level → List Frame
  | [] => []
  | items before :: ls => ⟨.sequence, column o ls, lead ls, before.length + 1⟩ :: frames ls
  | entry before _ :: ls => ⟨.mapping true, column o ls, lead ls, before.length + 1⟩ :: frames ls

end Level

namespace Spot

/-- The events of the document so far. -/
def told : Spot → List Event
  | node ls => ls.reverse.flatMap Level.events
  | key ls before _ => ls.reverse.flatMap Level.events ++ .mappingStart :: Node.entryEvents before

/-- The text up to the scalar. -/
def text : Spot → List Char
  | node ls => Level.text o ls ++ if Level.lead ls = .lineStart then [] else [' ']
  | key ls before marked =>
    Level.text o ls ++ ((Node.mapping before).begun o (Level.lead ls) (Level.column o ls) ++
      if marked then ['?', ' '] else [])

/-- What is written with the scalar after it. -/
def trail : Spot → List Char
  | node _ => ['\n']
  | key _ _ false => [':']
  | key ls _ true => '\n' :: (blanks (Level.column o ls) ++ [':'])

/-- The text that a writer has written who has not been told yet what comes. -/
def written : Spot → List Char
  | node [] => []
  | node (.items before :: ls) =>
    Level.text o ls ++ (Node.sequence before).record o (Level.lead ls) (Level.column o ls)
  | node (.entry before k :: ls) => Level.text o (.entry before k :: ls)
  | key ls before _ =>
    Level.text o ls ++ (Node.mapping before).record o (Level.lead ls) (Level.column o ls)

/-- The collections of this writer; an item has not been begun. -/
def stack : Spot → List Frame
  | node [] => []
  | node (.items before :: ls) =>
    ⟨.sequence, Level.column o ls, Level.lead ls, before.length⟩ :: Level.frames o ls
  | node (.entry before k :: ls) => Level.frames o (.entry before k :: ls)
  | key ls before _ =>
    ⟨.mapping false, Level.column o ls, Level.lead ls, before.length⟩ :: Level.frames o ls

def state (p : Spot) : State := ⟨.document false, p.stack o⟩

end Spot

theorem Node.record_items (l : Lead) (c : Nat) (items : List Node) :
    (Node.sequence items).record o l c ++ Writer.written (entryStart ⟨.sequence, c, l, items.length⟩) =
      (Node.sequence items).begun o l c := by
  cases items with
  | nil => exact (List.append_nil _).symm
  | cons n items =>
    rw [List.length_cons, State.written_entryStart_next, record, begun,
      State.written_entryStart .sequence c l (n := .sequence (n :: items)) rfl]
    simp [opened, isLeaf]

theorem Node.record_entries (k : Kind) (l : Lead) (c : Nat) (entries : List (Key × Node)) :
    (Node.mapping entries).record o l c ++ Writer.written (entryStart ⟨k, c, l, entries.length⟩) =
      (Node.mapping entries).begun o l c := by
  cases entries with
  | nil => exact (List.append_nil _).symm
  | cons e entries =>
    rw [List.length_cons, State.written_entryStart_next, record, begun,
      State.written_entryStart .sequence c l (n := .mapping (e :: entries)) rfl]
    simp [opened, isLeaf]

/-- An item that is complete goes to the others. -/
theorem Node.record_item (l : Lead) (c : Nat) (items : List Node) (n : Node) :
    (Node.sequence (items ++ [n])).record o l c =
      (Node.sequence items).begun o l c ++ '-' :: (n.gap .inline (c + 2) ++ n.body o (c + 2)) := by
  rw [begun, State.written_entryStart .sequence c l (n := .sequence [n]) rfl]
  cases items with
  | nil => simp [record, opened, isLeaf, body, itemBodies]
  | cons m items =>
    have hgap : (Node.sequence [n]).gap l c = (Node.sequence (m :: (items ++ [n]))).gap l c := by
      cases l <;> rfl
    rw [hgap]
    simp [record, opened, isLeaf, body, itemBodies, itemBodies_append]

theorem Node.record_entry (l : Lead) (c : Nat) (entries : List (Key × Node)) (k : Key) (n : Node) :
    (Node.mapping (entries ++ [(k, n)])).record o l c =
      (Node.mapping entries).begun o l c ++ (keyText c k ++
        (n.gap .newline (c + max 1 o.indentStep) ++ n.body o (c + max 1 o.indentStep))) := by
  rw [begun, State.written_entryStart .sequence c l (n := .mapping [(k, n)]) rfl]
  cases entries with
  | nil => simp [record, opened, isLeaf, body, entryBodies]
  | cons e entries =>
    have hgap : (Node.mapping [(k, n)]).gap l c =
        (Node.mapping (e :: (entries ++ [(k, n)]))).gap l c := by
      cases l <;> rfl
    rw [hgap]
    simp [record, opened, isLeaf, body, entryBodies, entryBodies_append]

namespace Spot
variable (ls : List Level)

theorem beginEntry_node :
    (node ls).written o ++ Writer.written ((node ls).state o).beginEntry.1 = Level.text o ls ∧
      ((node ls).state o).beginEntry.2 = ⟨.document false, Level.frames o ls⟩ := by
  match ls with
  | [] => exact ⟨rfl, rfl⟩
  | .items before :: ls =>
    refine ⟨?_, rfl⟩
    have hbegun := Node.record_items o (Level.lead ls) (Level.column o ls) before
    simp only [written, state, stack, State.beginEntry, written_append, Level.text]
    rw [← hbegun]
    simp [Writer.written, Chunk.toList]
  | .entry before k :: ls => exact ⟨List.append_nil _, rfl⟩

theorem place_node :
    ((node ls).state o).place? o.unbounded = some (Level.column o ls, Level.lead ls) := by
  match ls with
  | [] => rfl
  | .items before :: ls => rfl
  | .entry before k :: ls => rfl

/-- What becomes of a writer at a place that is told events and writes a text: it comes to another
place, or the root is complete. -/
def Goes (p : Spot) (es : List Event) (cs : List Char) (t : State) : Prop :=
  t.stage = .document true ∨
    ∃ q : Spot, t = q.state o ∧ q.told = p.told ++ es ∧ q.written o = p.written o ++ cs

/-- Behind a node that has ended. -/
theorem goes_node (n : Node) {p : Spot} {es : List Event} {cs : List Char}
    (htold : p.told ++ es = (node ls).told ++ n.events)
    (hwritten : p.written o ++ cs =
      Level.text o ls ++ (n.gap (Level.lead ls) (Level.column o ls) ++ n.body o (Level.column o ls))) :
    p.Goes o es cs (State.endNode ⟨.document false, Level.frames o ls⟩) := by
  match ls with
  | [] => exact .inl rfl
  | .items before :: ls =>
    refine .inr ⟨node (.items (before ++ [n]) :: ls), ?_, ?_, ?_⟩
    · simp [State.endNode, Level.frames, state, stack]
    · rw [htold]
      simp [told, Level.events, Node.itemEvents_append, Node.itemEvents]
    · rw [hwritten, written, Node.record_item]
      simp [Level.text, Level.lead, Level.column]
  | .entry before k :: ls =>
    refine .inr ⟨key ls (before ++ [(k, n)]) false, ?_, ?_, ?_⟩
    · simp [State.endNode, Level.frames, state, stack]
    · rw [htold]
      simp [told, Level.events, Node.entryEvents_append, Node.entryEvents]
    · rw [hwritten, written, Node.record_entry]
      simp [Level.text, Level.lead, Level.column]

theorem goes_scalar (text : String) (pr : Presentation) :
    (node ls).Goes o [.scalar text pr] (((node ls).state o).output o.unbounded (.scalar text pr))
      ((node ls).state o).beginEntry.2.endNode := by
  obtain ⟨hwritten, hstate⟩ := beginEntry_node o ls
  rw [hstate]
  refine goes_node o ls (.scalar text pr) rfl ?_
  rw [State.output_scalar o.unbounded rfl (State.takesNode_of_place (place_node o ls)), ← List.append_assoc,
    hwritten, Node.body]
  congr 2
  match ls with
  | [] => rfl
  | .items before :: ls => rfl
  | .entry before k :: ls => rfl

theorem goes_key (before : List (Key × Node)) (marked : Bool) (k : Key) :
    (key ls before marked).Goes o [.scalar k.1 k.2]
      (((key ls before marked).state o).output o.unbounded (.scalar k.1 k.2))
      ((node (.entry before k :: ls)).state o) := by
  refine .inr ⟨node (.entry before k :: ls), rfl, ?_, ?_⟩
  · simp [told, Level.events]
  · have hbegun := Node.record_entries o (.mapping false) (Level.lead ls) (Level.column o ls) before
    simp only [state, stack, State.output_key, written, Level.text]
    rw [← hbegun]
    simp

theorem goes_start {e : Event} {k : Kind} (he : started? e = some k) :
    (node ls).Goes o [e] (((node ls).state o).output o.unbounded e)
      ⟨.document false, ⟨k, Level.column o ls, Level.lead ls, 0⟩ :: Level.frames o ls⟩ := by
  obtain ⟨hwritten, _⟩ := beginEntry_node o ls
  have hbegin : (node ls).written o ++ ((node ls).state o).output o.unbounded e = Level.text o ls := by
    rw [State.output_start o.unbounded rfl he (State.takesNode_of_place (place_node o ls)), hwritten]
  cases e <;> simp only [started?, reduceCtorEq, Option.some.injEq] at he <;> subst he
  · exact .inr ⟨node (.items [] :: ls), rfl, by simp [told, Level.events, Node.itemEvents],
      by rw [hbegin]; exact List.append_nil _⟩
  · exact .inr ⟨key ls [] false, rfl, by simp [told, Node.entryEvents],
      by rw [hbegin]; exact List.append_nil _⟩

theorem goes_sequenceEnd (before : List Node) :
    (node (.items before :: ls)).Goes o [.sequenceEnd]
      (((node (.items before :: ls)).state o).output o.unbounded .sequenceEnd)
      (State.endNode ⟨.document false, Level.frames o ls⟩) := by
  refine goes_node o ls (.sequence before) (by simp [told, Level.events, Node.events]) ?_
  simp only [state, stack, State.output_sequenceEnd, written, Node.record]
  cases before with
  | nil =>
    simp only [if_pos, List.length_nil, Node.isLeaf, List.append_nil]
    rfl
  | cons n before => simp [Node.isLeaf]

theorem goes_mappingEnd (before : List (Key × Node)) (marked : Bool) :
    (key ls before marked).Goes o [.mappingEnd]
      (((key ls before marked).state o).output o.unbounded .mappingEnd)
      (State.endNode ⟨.document false, Level.frames o ls⟩) := by
  refine goes_node o ls (.mapping before) (by simp [told, Node.events]) ?_
  simp only [state, stack, State.output_mappingEnd, written, Node.record]
  cases before with
  | nil =>
    simp only [if_pos, List.length_nil, Node.isLeaf, List.append_nil]
    rfl
  | cons e before => simp [Node.isLeaf]

variable {o}

/-- Every event that is taken at a place leads to another one, or completes the root. -/
theorem step {p : Spot} {e : Event} {t : State} (h : (p.state o).after? o.unbounded e = some t) :
    p.Goes o [e] ((p.state o).output o.unbounded e) t := by
  have hmoves := State.moves_of_after rfl h
  cases p with
  | node ls =>
    have hplace := place_node o ls
    cases hmoves with
    | scalar text pr hk => exact goes_scalar o ls text pr
    | key text pr hs => simp [State.place?, State.slot, hs] at hplace
    | opens he hp =>
      obtain ⟨rfl, rfl⟩ := Prod.mk.inj (Option.some.inj (hplace.symm.trans hp))
      rw [(beginEntry_node o ls).2]
      exact goes_start o ls he
    | closes he hs =>
      cases ls with
      | nil => cases hs
      | cons l ls =>
        cases l with
        | items before =>
          obtain ⟨rfl, rfl⟩ := List.cons.inj hs
          cases e <;> simp only [ended?, reduceCtorEq, Option.some.injEq] at he
          exact goes_sequenceEnd o ls before
        | entry before k =>
          obtain ⟨rfl, rfl⟩ := List.cons.inj hs
          cases e <;> simp [ended?] at he
  | key ls before marked =>
    cases hmoves with
    | scalar text pr hk => exact hk.elim
    | key text pr hs =>
      obtain ⟨hf, rfl⟩ := List.cons.inj hs
      cases hf
      exact goes_key o ls before marked (text, pr)
    | opens he hp => cases hp
    | closes he hs =>
      obtain ⟨rfl, rfl⟩ := List.cons.inj hs
      cases e <;> simp only [ended?, reduceCtorEq, Option.some.injEq] at he
      exact goes_mappingEnd o ls before marked

/-- Where the root is complete only the end of the document is taken. -/
theorem tells_done {s t : State} {es : List Event} {cs : List Char} (hs : s.stage = .document true)
    (h : State.Tells o.unbounded s es t cs) (hes : .documentEnd ∉ es) : t.stage = .document true := by
  cases h with
  | nil => exact hs
  | @cons _ _ _ e _ _ he =>
    cases e <;> simp [State.after?, State.actions, hs] at he
    exact absurd List.mem_cons_self hes

/-- A writer that is told events at a place comes to another one, unless the root is completed. -/
theorem run {p : Spot} {es : List Event} {t : State} {cs : List Char}
    (h : State.Tells o.unbounded (p.state o) es t cs) (hes : .documentEnd ∉ es) : p.Goes o es cs t := by
  generalize hs : p.state o = s at h
  induction h generalizing p with
  | nil s => exact .inr ⟨p, hs.symm, (List.append_nil _).symm, (List.append_nil _).symm⟩
  | cons he htells ih =>
    have hrest := fun hmem => hes (List.mem_cons_of_mem _ hmem)
    subst hs
    obtain hdone | ⟨q, rfl, htold, hwritten⟩ := step he
    · exact .inl (tells_done hdone htells hrest)
    · obtain hdone | ⟨r, hr, htold', hwritten'⟩ := ih hrest rfl
      · exact .inl hdone
      · refine .inr ⟨r, hr, ?_, ?_⟩
        · rw [htold', htold, List.append_assoc, List.singleton_append]
        · rw [hwritten', hwritten, List.append_assoc]

/-- A key has a mark of its own if its text is long. -/
def Suits (length : Nat) : Spot → Prop
  | node _ => True
  | key _ _ marked => marked = decide (maxImplicitKey < length)

/-- The scalar that comes is written at the place. -/
theorem output_scalar {p : Spot} (t : String) (pr : Presentation)
    (hp : p.Suits (render t pr).length) :
    p.written o ++ (p.state o).output o.unbounded (.scalar t pr) = p.text o ++ (render t pr ++ p.trail o) := by
  cases p with
  | node ls =>
    obtain ⟨hwritten, _⟩ := beginEntry_node o ls
    rw [State.output_scalar o.unbounded rfl (State.takesNode_of_place (place_node o ls)), ← List.append_assoc,
      hwritten, text, List.append_assoc]
    match ls with
    | [] => rfl
    | .items before :: ls => rfl
    | .entry before k :: ls => rfl
  | key ls before marked =>
    have hbegun := Node.record_entries o (.mapping false) (Level.lead ls) (Level.column o ls) before
    have hkey := State.output_key o.unbounded (Level.column o ls) (Level.lead ls) before.length
      (Level.frames o ls) (t, pr)
    simp only [state, stack, written]
    rw [hkey, List.append_assoc, ← List.append_assoc (Node.record _ _ _ _), hbegun, keyText, text]
    obtain rfl : marked = decide (maxImplicitKey < (render t pr).length) := hp
    by_cases hlong : maxImplicitKey < (render t pr).length <;> simp [hlong, trail]

end Spot

/-- Before a scalar of its first document a writer is at one of the places, where it writes it. -/
theorem State.spot_of_tells {es : List Event} {s : State} {before : List Char}
    (h : Tells o.unbounded .start (.streamStart :: .documentStart :: es) s before) (hes : .documentEnd ∉ es)
    (hs : s.stage = .document false) (t : String) (pr : Presentation) :
    ∃ p : Spot, p.Suits (render t pr).length ∧ p.told = es ∧
      before ++ s.output o.unbounded (.scalar t pr) = p.text o ++ (render t pr ++ p.trail o) := by
  obtain ⟨cs, rfl, htells⟩ : ∃ cs, before = cs ∧ Tells o.unbounded ⟨.document false, []⟩ es s cs := by
    cases h with
    | cons he h =>
      obtain rfl := Option.some.inj he
      cases h with
      | cons he h =>
        obtain rfl := Option.some.inj he
        exact ⟨_, rfl, h⟩
  obtain hdone | ⟨q, rfl, htold, hwritten⟩ := Spot.run (p := .node []) htells hes
  · rw [hs] at hdone
    exact nomatch hdone
  · cases q with
    | node ls =>
      refine ⟨.node ls, trivial, htold, ?_⟩
      rw [← Spot.output_scalar (p := .node ls) t pr trivial, hwritten]
      rfl
    | key ls entries marked =>
      refine ⟨.key ls entries (decide (maxImplicitKey < (render t pr).length)), rfl, htold, ?_⟩
      have hout := Spot.output_scalar (o := o)
        (p := .key ls entries (decide (maxImplicitKey < (render t pr).length))) t pr rfl
      rw [← hout]
      exact congrArg (· ++ _) hwritten.symm

end
end YamlCodec.Writer
