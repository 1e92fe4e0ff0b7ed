import YamlCodec.Proofs.Writer.Words

/-!
# The block layout of a node

The text of a node by recursion over it: what stands between the place it begins after and its first
character, and the text from there on. Told the events of a node, a writer writes this text.
-/

set_option autoImplicit false

namespace YamlCodec.Writer

abbrev blanks (n : Nat) : List Char := List.replicate n ' '

/-- A key with its colon, on two lines with a mark of its own if it is long. -/
def keyText (column : Nat) (k : Key) : List Char :=
  let text := render k.1 k.2
  if maxImplicitKey < text.length then
    '?' :: ' ' :: (text ++ '\n' :: (blanks column ++ [':']))
  else text ++ [':']

namespace Node

/-- The node stands on one line, where its entry or key does. -/
def isLeaf : Node → Bool
  | scalar _ _ => true
  | sequence [] => true
  | mapping [] => true
  | _ => false

/-- What stands before a node whose entries have a column. -/
def gap (lead : Lead) (column : Nat) (n : Node) : List Char :=
  match lead, n.isLeaf with
  | .lineStart, true => []
  | .inline, true => [' ']
  | .newline, true => [' ']
  | .lineStart, false => blanks column
  | .inline, false => [' ']
  | .newline, false => '\n' :: blanks column

section
variable (o : WriterOptions)

mutual

/-- The text of a node from its first character on, up to the end of its last line. -/
def body (column : Nat) : Node → List Char
  | scalar text p => render text p ++ ['\n']
  | sequence [] => (if o.emptyAsBraces then ['[', ']'] else []) ++ ['\n']
  | sequence (n :: rest) =>
    '-' :: (n.gap .inline (column + 2) ++ (body (column + 2) n ++ itemBodies column rest))
  | mapping [] => (if o.emptyAsBraces then ['{', '}'] else []) ++ ['\n']
  | mapping ((k, n) :: rest) =>
    keyText column k ++ (n.gap .newline (column + max 1 o.indentStep) ++
      (body (column + max 1 o.indentStep) n ++ entryBodies column rest))

def itemBodies (column : Nat) : List Node → List Char
  | [] => []
  | n :: rest =>
    blanks column ++ '-' :: (n.gap .inline (column + 2) ++
      (body (column + 2) n ++ itemBodies column rest))

def entryBodies (column : Nat) : List (Key × Node) → List Char
  | [] => []
  | (k, n) :: rest =>
    blanks column ++ (keyText column k ++ (n.gap .newline (column + max 1 o.indentStep) ++
      (body (column + max 1 o.indentStep) n ++ entryBodies column rest)))

end

theorem itemBodies_append (column : Nat) (xs ys : List Node) :
    itemBodies o column (xs ++ ys) = itemBodies o column xs ++ itemBodies o column ys := by
  induction xs with
  | nil => rfl
  | cons n xs ih => simp [itemBodies, ih]

theorem entryBodies_append (column : Nat) (xs ys : List (Key × Node)) :
    entryBodies o column (xs ++ ys) = entryBodies o column xs ++ entryBodies o column ys := by
  induction xs with
  | nil => rfl
  | cons e xs ih => simp [entryBodies, ih]

end
end Node

namespace State

/-- Events that are all taken lead from one state to another and write a text. -/
inductive Tells (o : WriterOptions) : State → List Event → State → List Char → Prop where
  | nil (s : State) : Tells o s [] s []
  | cons {s t u : State} {e : Event} {es : List Event} {cs : List Char}
      (he : s.after? o e = some t) (hes : Tells o t es u cs) :
      Tells o s (e :: es) u (s.output o e ++ cs)

namespace Tells
variable {o : WriterOptions} {s t u : State}

theorem single {e : Event} (he : s.after? o e = some t) : Tells o s [e] t (s.output o e) := by
  rw [← List.append_nil (s.output o e)]
  exact .cons he (.nil t)

theorem append {es fs : List Event} {cs ds : List Char} (he : Tells o s es t cs)
    (hf : Tells o t fs u ds) : Tells o s (es ++ fs) u (cs ++ ds) := by
  induction he with
  | nil s => exact hf
  | cons he _ ih =>
    rw [List.cons_append, List.append_assoc]
    exact .cons he (ih hf)

theorem congr {es fs : List Event} {cs ds : List Char} (h : Tells o s es t cs) (he : es = fs)
    (hs : t = u) (hc : cs = ds) : Tells o s fs u ds := by
  rwa [← he, ← hs, ← hc]

/-- As long as words hold the columns of the run, it goes as it does where they have no bound. -/
theorem unbounded {es : List Event} {cs : List Char} (h : Tells o s es t cs) {w : String}
    (hw : ∀ c ∈ Session.columns o.unbounded ⟨s, ⟨w, none⟩⟩ es, o.Holds c) : Tells o.unbounded s es t cs := by
  induction h generalizing w with
  | nil s => exact .nil s
  | cons he _ ih =>
    rw [Session.columns, List.forall_mem_append] at hw
    obtain ⟨hfirst, hrest⟩ := hw
    have hopened := fun c hc => hfirst c (Option.mem_toList.mpr hc)
    rw [after?_unbounded hopened] at he
    rw [Session.feed_taken w he] at hrest
    rw [output_unbounded hopened]
    exact .cons he (ih hrest)

end Tells

section
variable (o : WriterOptions)

theorem slot_root (s : State) : s.slot = .root ↔ s.stack = [] := by
  unfold slot
  split <;> simp [*]

theorem output_scalar {s : State} (hs : s.stage = .document false) (hk : TakesNode s.kinds)
    (t : String) (p : Presentation) :
    s.output o (.scalar t p) =
      written s.beginEntry.1 ++
        ((if s.stack.isEmpty then [] else [' ']) ++ (render t p ++ ['\n'])) := by
  have hslot := s.slot_root
  rw [output, actions_scalar o hs hk]
  simp only [writeScalar, written_append]
  congr 1
  by_cases hroot : s.stack = [] <;> simp [hslot, hroot, written, Chunk.toList, space, newline]

theorem output_start {s : State} (hs : s.stage = .document false) {e : Event} {k : Kind}
    (he : started? e = some k) (hk : TakesNode s.kinds) :
    s.output o e = written s.beginEntry.1 := by
  rw [takesNode_iff s o, Option.isSome_iff_exists] at hk
  obtain ⟨place, hp⟩ := hk
  rw [output, actions_start o hs he, openCollection, hp]
  simp [written_append, written]

theorem output_key (c : Nat) (l : Lead) (n : Nat) (fs : List Frame) (k : Key) :
    output o ⟨.document false, ⟨.mapping false, c, l, n⟩ :: fs⟩ (.scalar k.1 k.2) =
      written (entryStart ⟨.mapping false, c, l, n⟩) ++ keyText c k := by
  simp only [output, actions, nodeActions, slot, writeKey, written_append, keyText, keyActions]
  split <;> simp [written, Chunk.toList, newline]

theorem output_sequenceEnd (c : Nat) (l : Lead) (n : Nat) (fs : List Frame) :
    output o ⟨.document false, ⟨.sequence, c, l, n⟩ :: fs⟩ .sequenceEnd =
      if n = 0 then Node.gap l c (.sequence []) ++ Node.body o c (.sequence []) else [] := by
  simp only [output, actions, nodeActions, closeCollection, written, written_append]
  by_cases hn : n = 0
  · cases l <;> cases hb : o.emptyAsBraces <;>
      simp [hn, hb, emptyActions, written, Node.gap, Node.isLeaf, Node.body, Chunk.toList, space, newline]
  · simp [hn, written]

theorem output_mappingEnd (c : Nat) (l : Lead) (n : Nat) (fs : List Frame) :
    output o ⟨.document false, ⟨.mapping false, c, l, n⟩ :: fs⟩ .mappingEnd =
      if n = 0 then Node.gap l c (.mapping []) ++ Node.body o c (.mapping []) else [] := by
  simp only [output, actions, nodeActions, closeCollection, written, written_append]
  by_cases hn : n = 0
  · cases l <;> cases hb : o.emptyAsBraces <;>
      simp [hn, hb, emptyActions, written, Node.gap, Node.isLeaf, Node.body, Chunk.toList, space, newline]
  · simp [hn, written]

theorem written_entryStart (k : Kind) (c : Nat) (l : Lead) {n : Node} (hn : n.isLeaf = false) :
    written (entryStart ⟨k, c, l, 0⟩) = n.gap l c := by
  cases l <;> simp [entryStart, Node.gap, hn, written, Chunk.toList, space, newline]

theorem written_entryStart_next (k : Kind) (c : Nat) (l : Lead) (n : Nat) :
    written (entryStart ⟨k, c, l, n + 1⟩) = blanks c := by
  simp [entryStart, written, Chunk.toList]

end

section
variable (o : WriterOptions)

mutual

/-- A node is written where it may stand, after what begins its entry. -/
theorem tells_node (n : Node) (s : State) (hs : s.stage = .document false) {c : Nat} {l : Lead}
    (hp : s.place? o.unbounded = some (c, l)) :
    Tells o.unbounded s n.events s.beginEntry.2.endNode
      (written s.beginEntry.1 ++ (n.gap l c ++ n.body o c)) := by
  have hk := takesNode_of_place hp
  have hstart {e : Event} {k : Kind} (he : started? e = some k) :
      s.after? o.unbounded e = some ⟨.document false, ⟨k, c, l, 0⟩ :: s.beginEntry.2.stack⟩ :=
    after_start_at o.unbounded hs he hp
  have hbegin : (⟨.document false, s.beginEntry.2.stack⟩ : State) = s.beginEntry.2 := by
    rw [← hs, ← beginEntry_stage s]
  match n with
  | .scalar t p =>
    refine (Tells.single (after_scalar o.unbounded hs hk t p)).congr rfl rfl ?_
    rw [output_scalar o.unbounded hs hk, Node.body]
    congr 2
    obtain ⟨stage, stack⟩ := s
    match stack with
    | [] =>
      obtain ⟨rfl, rfl⟩ : 0 = c ∧ .lineStart = l := by simpa [place?, slot] using hp
      rfl
    | ⟨.sequence, c', _, _⟩ :: fs =>
      obtain ⟨_, rfl⟩ : c' + 2 = c ∧ .inline = l := by simpa [place?, slot] using hp
      rfl
    | ⟨.mapping true, c', _, _⟩ :: fs =>
      obtain ⟨_, rfl⟩ : _ ∧ .newline = l := by simpa [place?, slot] using hp
      rfl
    | ⟨.mapping false, _, _, _⟩ :: fs => exact hk.elim
  | .sequence [] =>
    refine (Tells.cons (hstart rfl) (.single (after_end o.unbounded (e := .sequenceEnd) rfl c l 0 _))).congr rfl ?_ ?_
    · rw [hbegin]
    · rw [output_start o.unbounded hs rfl hk, output_sequenceEnd, if_pos rfl]
      rfl
  | .sequence (n :: rest) =>
    have hitem := tells_node n ⟨.document false, ⟨.sequence, c, l, 0⟩ :: s.beginEntry.2.stack⟩
      rfl rfl
    have hitems := tells_items rest c l 0 s.beginEntry.2.stack
    have hend := Tells.single (after_end o.unbounded (e := .sequenceEnd) rfl c l (0 + 1 + rest.length)
      s.beginEntry.2.stack)
    refine (Tells.cons (hstart (e := .sequenceStart) rfl)
      ((hitem.append hitems).append hend)).congr ?_ ?_ ?_
    · simp [Node.events, Node.itemEvents]
    · rw [hbegin]
    · rw [output_start o.unbounded hs rfl hk, output_sequenceEnd, if_neg (by omega)]
      simp [beginEntry, written_append, written, Chunk.toList, Node.body,
        written_entryStart .sequence c l (n := .sequence (n :: rest)) rfl]
  | .mapping [] =>
    refine (Tells.cons (hstart rfl) (.single (after_end o.unbounded (e := .mappingEnd) rfl c l 0 _))).congr rfl ?_ ?_
    · rw [hbegin]
    · rw [output_start o.unbounded hs rfl hk, output_mappingEnd, if_pos rfl]
      rfl
  | .mapping ((k, n) :: rest) =>
    have hkey := Tells.single (after_key o.unbounded c l 0 s.beginEntry.2.stack k.1 k.2)
    have hvalue := tells_node n ⟨.document false, ⟨.mapping true, c, l, 1⟩ :: s.beginEntry.2.stack⟩
      rfl rfl
    have hentries := tells_entries rest c l 0 s.beginEntry.2.stack
    have hend := Tells.single (after_end o.unbounded (e := .mappingEnd) rfl c l (0 + 1 + rest.length)
      s.beginEntry.2.stack)
    refine (Tells.cons (hstart (e := .mappingStart) rfl)
      (((hkey.append hvalue).append hentries).append hend)).congr
      ?_ ?_ ?_
    · simp [Node.events, Node.entryEvents]
    · rw [hbegin]
    · rw [output_start o.unbounded hs rfl hk, output_mappingEnd, if_neg (by omega), output_key]
      simp [beginEntry, written, Node.body,
        written_entryStart (.mapping false) c l (n := .mapping ((k, n) :: rest)) rfl]

theorem tells_items (items : List Node) (c : Nat) (l : Lead) (k : Nat) (fs : List Frame) :
    Tells o.unbounded ⟨.document false, ⟨.sequence, c, l, k + 1⟩ :: fs⟩ (Node.itemEvents items)
      ⟨.document false, ⟨.sequence, c, l, k + 1 + items.length⟩ :: fs⟩
      (Node.itemBodies o c items) := by
  match items with
  | [] => exact .nil _
  | n :: rest =>
    have hitem := tells_node n ⟨.document false, ⟨.sequence, c, l, k + 1⟩ :: fs⟩ rfl rfl
    refine (hitem.append (tells_items rest c l (k + 1) fs)).congr rfl ?_ ?_
    · simp [Nat.add_comm, Nat.add_left_comm]
    · simp [beginEntry, written_append, written_entryStart_next, written, Chunk.toList,
        Node.itemBodies]

theorem tells_entries (entries : List (Key × Node)) (c : Nat) (l : Lead) (k : Nat)
    (fs : List Frame) :
    Tells o.unbounded ⟨.document false, ⟨.mapping false, c, l, k + 1⟩ :: fs⟩ (Node.entryEvents entries)
      ⟨.document false, ⟨.mapping false, c, l, k + 1 + entries.length⟩ :: fs⟩
      (Node.entryBodies o c entries) := by
  match entries with
  | [] => exact .nil _
  | (key, n) :: rest =>
    have hkey := Tells.single (after_key o.unbounded c l (k + 1) fs key.1 key.2)
    have hvalue := tells_node n ⟨.document false, ⟨.mapping true, c, l, k + 1 + 1⟩ :: fs⟩ rfl rfl
    refine ((hkey.append hvalue).append (tells_entries rest c l (k + 1) fs)).congr ?_ ?_ ?_
    · simp [Node.entryEvents]
    · simp [Nat.add_comm, Nat.add_left_comm]
    · rw [output_key]
      simp [beginEntry, written_entryStart_next, written, Node.entryBodies]

end

end

end State
end YamlCodec.Writer
