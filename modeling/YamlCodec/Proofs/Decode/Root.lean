import YamlCodec.Proofs.Budget.Counts

/-!
# The first node settles the outcome

How many collections are open is known from the kinds of the parts alone. When the part comes that
completes the first node, the building has ended or fails there, so decoding has the same outcome
whatever items follow: more documents, faults, or events that no budget would let through.
-/

set_option autoImplicit false

namespace YamlCodec
open Decode

namespace Decode

/-- How many collections are open after a part, `n` of them being open before it; nothing if the part
completes the outermost node. -/
def Part.Kind.openAfter? (n : Nat) : Part.Kind → Option Nat
  | .scalar _ _ _ | .alias => if n = 0 then none else some n
  | .sequenceStart | .mappingStart => some (n + 1)
  | .sequenceEnd | .mappingEnd => if n ≤ 1 then none else some (n - 1)

/-- The same after several parts, none of which completes the outermost node. -/
def openAfter? (n : Nat) : List Part.Kind → Option Nat
  | [] => some n
  | k :: kinds => (k.openAfter? n).bind (openAfter? · kinds)

/-- One of the items is the event that completes the first node. -/
def CompletesNode (items : List Item) : Prop := openAfter? 0 (Item.kinds items) = none

instance : DecidablePred CompletesNode := fun _ => inferInstanceAs (Decidable (_ = none))

mutual

/-- The parts of a whole node complete it, or leave as many collections open around it as there were. -/
theorem openAfter_tree (n : Nat) (rest : List Part.Kind) : (t : Tree) →
    openAfter? n (t.kinds ++ rest) = if n = 0 then none else openAfter? n rest
  | .scalar text style tag => by
    rw [Tree.kinds, List.singleton_append, openAfter?, Part.Kind.openAfter?]
    split <;> rfl
  | .alias => by
    rw [Tree.kinds, List.singleton_append, openAfter?, Part.Kind.openAfter?]
    split <;> rfl
  | .sequence items => by
    rw [Tree.kinds, List.cons_append, List.append_assoc, openAfter?, Part.Kind.openAfter?,
      Option.bind_some, openAfter_items n _ items, List.singleton_append, openAfter?,
      Part.Kind.openAfter?]
    cases n <;> rfl
  | .mapping entries => by
    rw [Tree.kinds, List.cons_append, List.append_assoc, openAfter?, Part.Kind.openAfter?,
      Option.bind_some, openAfter_entries n _ entries, List.singleton_append, openAfter?,
      Part.Kind.openAfter?]
    cases n <;> rfl

theorem openAfter_items (n : Nat) (rest : List Part.Kind) : (items : List Tree) →
    openAfter? (n + 1) (Tree.itemKinds items ++ rest) = openAfter? (n + 1) rest
  | [] => rfl
  | t :: items => by
    rw [Tree.itemKinds, List.append_assoc, openAfter_tree (n + 1) _ t, if_neg n.succ_ne_zero,
      openAfter_items n rest items]

theorem openAfter_entries (n : Nat) (rest : List Part.Kind) : (entries : List (Tree × Tree)) →
    openAfter? (n + 1) (Tree.entryKinds entries ++ rest) = openAfter? (n + 1) rest
  | [] => rfl
  | (k, t) :: entries => by
    rw [Tree.entryKinds, List.append_assoc, List.append_assoc, openAfter_tree (n + 1) _ k,
      if_neg n.succ_ne_zero, openAfter_tree (n + 1) _ t, if_neg n.succ_ne_zero,
      openAfter_entries n rest entries]

end

/-- Items that tell a whole node complete it. -/
theorem completesNode_of_tree {items : List Item} {t : Tree} (h : t.kinds <+: Item.kinds items) :
    CompletesNode items := by
  obtain ⟨rest, hrest⟩ := h
  rw [CompletesNode, ← hrest, openAfter_tree]
  rfl

theorem place_nonempty {v : Value} {stack stack' : List Frame} (h : place v stack = .going stack') :
    stack.length ≠ 0 := by
  intro hs
  rw [List.length_eq_zero_iff.mp hs] at h
  simp [place] at h

/-- A building that goes on has as many frames as collections are open. -/
theorem accept_open {stack stack' : List Frame} {p : Part}
    (h : accept stack p = .ok (.going stack')) :
    p.kind.openAfter? stack.length = some stack'.length := by
  have placed {v : Value} {s : List Frame} (hp : place v s = .going stack') :
      (if s.length = 0 then none else some s.length) = some stack'.length := by
    rw [if_neg (place_nonempty hp), place_length hp]
  have closed {f : Frame} {v : Value} {s : List Frame} (hp : place v s = .going stack') :
      (if (f :: s).length ≤ 1 then none else some ((f :: s).length - 1)) =
        some stack'.length := by
    have hs := place_nonempty hp
    rw [List.length_cons, if_neg (by omega), place_length hp, Nat.add_sub_cancel]
  obtain ⟨kind, l⟩ := p
  cases kind with
  | scalar text style tag =>
    simp only [accept] at h
    split at h
    · obtain rfl := Progress.going.inj (Except.ok.inj h)
      rfl
    · exact placed (Except.ok.inj h)
  | «alias» =>
    simp only [accept] at h
    split at h
    · simp at h
    · exact placed (Except.ok.inj h)
  | sequenceStart | mappingStart =>
    simp only [accept] at h
    split at h
    · simp at h
    · obtain rfl := Progress.going.inj (Except.ok.inj h)
      rfl
  | sequenceEnd | mappingEnd =>
    simp only [accept] at h
    split at h
    · exact closed (Except.ok.inj h)
    · simp at h

theorem stackAfter_open {stack stack' : List Frame} {parts : List Part}
    (h : stackAfter? stack parts = some stack') :
    openAfter? stack.length (parts.map Part.kind) = some stack'.length := by
  induction parts generalizing stack with
  | nil =>
    obtain rfl := Option.some.inj h
    rfl
  | cons p parts ih =>
    rw [stackAfter?] at h
    split at h
    · rename_i s ha
      rw [List.map_cons, openAfter?, accept_open ha]
      exact ih h
    · simp at h

/-- Items that end in a failure make the same supply whatever comes after them. -/
theorem ofItems_failed {m : Option Meter} {last : Location} {items : List Item} {e : Error}
    (h : (Supply.ofItems m last items).ending = .failed e) (rest : List Item) :
    Supply.ofItems m last (items ++ rest) = Supply.ofItems m last items := by
  induction items generalizing m last with
  | nil => simp [Supply.ofItems] at h
  | cons item items ih =>
    cases item with
    | fault f mark => rfl
    | event ev mark =>
      rw [List.cons_append, Supply.ofItems, Supply.ofItems]
      rw [Supply.ofItems] at h
      split at h
      · rfl
      · rw [cons_ending] at h
        rw [ih h]

/-- Items run out without a breach or fault just if all are events and these are within the
budget. -/
theorem exhausted_iff {b : Option Budget} {c : Counts} (hc : c.Fits b) (last : Location)
    (items : List Item) :
    (∃ l, (Supply.ofItems (meterAt b c) last items).ending = .exhausted l) ↔
      ∃ es, items.map Item.event? = es.map some ∧ (c.addAll es).Fits b := by
  constructor
  · rintro ⟨l, hl⟩
    induction items generalizing c last with
    | nil => exact ⟨[], rfl, hc⟩
    | cons item items ih =>
      cases item with
      | fault f mark => simp [Supply.ofItems] at hl
      | event e mark =>
        by_cases hfits : (c.add e).Fits b
        · rw [ofItems_fits hfits, cons_ending] at hl
          obtain ⟨es, hes, hall⟩ := ih hfits (.ofMark mark) hl
          exact ⟨e :: es, congrArg (List.cons (some e)) hes, hall⟩
        · obtain ⟨x, hx⟩ := ofItems_breach hc hfits last mark items
          rw [hx] at hl
          simp at hl
  · rintro ⟨es, hes, hall⟩
    obtain ⟨parts, last', _, hs⟩ := ofItems_run hes hall last
    have hend := hs []
    rw [List.append_nil] at hend
    exact ⟨last', by rw [hend]; rfl⟩

/-- Decoding either has its outcome from the items already, or has taken all their parts and goes on with
what comes after them. -/
theorem settled_or_open (items : List Item) (b : Option Budget) :
    (∀ rest, decodeItems (items ++ rest) b = decodeItems items b) ∨
      ∃ parts stack m last, parts.map Part.kind = Item.kinds items ∧
        stackAfter? [] parts = some stack ∧
        ∀ rest, decodeItems (items ++ rest) b =
          (build (Supply.ofItems m last rest).ending stack (Supply.ofItems m last rest).parts).1 := by
  cases hend : (Supply.ofItems (meterAt b .zero) .unknown items).ending with
  | failed e =>
    refine .inl fun rest => ?_
    rw [decodeItems_eq, decodeItems_eq, ofItems_failed hend]
  | exhausted l =>
    obtain ⟨es, hes, hfits⟩ := (exhausted_iff (Counts.zero_fits b) .unknown items).mp ⟨l, hend⟩
    obtain ⟨parts, last, _, hs⟩ := ofItems_run hes hfits .unknown
    have halone := hs []
    rw [List.append_nil] at halone
    have hkinds := kinds_of_exhausted hend
    rw [halone, List.map_append, Supply.ofItems, List.map_nil, List.append_nil] at hkinds
    cases hstack : stackAfter? [] parts with
    | none =>
      obtain ⟨r, left, _, hb⟩ := build_settled hstack
      refine .inl fun rest => ?_
      rw [decodeItems_eq, decodeItems_eq, halone, hs, Supply.value, Supply.value, hb, hb]
    | some stack =>
      refine .inr ⟨parts, stack, meterAt b (Counts.zero.addAll es), last, hkinds, hstack, ?_⟩
      intro rest
      rw [decodeItems_eq, hs, Supply.value, build_append hstack]

/-- What comes after the event that completes the first node is not looked at. -/
theorem decodeItems_append {items : List Item} (h : CompletesNode items) (b : Option Budget)
    (rest : List Item) : decodeItems (items ++ rest) b = decodeItems items b := by
  rcases settled_or_open items b with hsettled | ⟨parts, stack, _, _, hkinds, hstack, _⟩
  · exact hsettled rest
  · have hopen := stackAfter_open hstack
    rw [hkinds] at hopen
    exact absurd (h.symm.trans hopen) nofun

/-- A fault that is met while the outcome is still open is the outcome. -/
theorem decodeItems_fault {items xs ys : List Item} {b : Option Budget}
    (h : decodeItems (items ++ xs) b ≠ decodeItems (items ++ ys) b) (f : Source.Fault)
    (mark : Source.Mark) (rest : List Item) :
    decodeItems (items ++ .fault f mark :: rest) b = .error (.ofFault f mark) := by
  rcases settled_or_open items b with hsettled | ⟨_, _, _, _, _, _, hopen⟩
  · exact absurd ((hsettled xs).trans (hsettled ys).symm) h
  · rw [hopen]
    rfl

theorem decodeItems_prefix {items xs ys : List Item} (h : CompletesNode items) (b : Option Budget)
    (hx : items <+: xs) (hy : items <+: ys) : decodeItems xs b = decodeItems ys b := by
  obtain ⟨_, rfl⟩ := hx
  obtain ⟨_, rfl⟩ := hy
  rw [decodeItems_append h, decodeItems_append h]

/-- Items without a node denote null just if the stream ends without a breach or fault. -/
theorem decodeItems_no_node {items : List Item} (h : Item.kinds items = []) (b : Option Budget) :
    decodeItems items b = .ok .null ↔
      ∃ es, items.map Item.event? = es.map some ∧ (Counts.zero.addAll es).Fits b := by
  rw [← exhausted_iff (Counts.zero_fits b) .unknown, decodeItems_eq, Supply.value]
  generalize hs : Supply.ofItems (meterAt b .zero) .unknown items = s
  have hparts : s.parts = [] := by
    have happend : (Supply.ofItems (meterAt b .zero) .unknown items).parts = s.parts ++ [] := by
      rw [hs, List.append_nil]
    obtain ⟨es, hpre, hkinds, _⟩ := events_of_parts (Counts.zero_fits b) happend
    have hnone := Item.kinds_prefix hpre
    rw [h, hkinds, List.prefix_nil] at hnone
    exact List.map_eq_nil_iff.mp hnone
  rw [hparts, build]
  cases s.ending with
  | failed e => simp [atEnd]
  | exhausted last => simp [atEnd]

end Decode

/-- Decoding depends only on the items up to the event that completes the first node, such as the last
one of those that tell a whole tree; this holds of any items a reader may yield and so of any text. Items
without a node denote null just if none of them is a fault and all are within the budget. -/
theorem decode_reads_first_node (b : Option Budget) :
    (∀ items xs ys, CompletesNode items → items <+: xs → items <+: ys →
      decodeItems xs b = decodeItems ys b) ∧
    (∀ items text text', CompletesNode items → items <+: Event.read text →
      items <+: Event.read text' → decode text b = decode text' b) ∧
    (∀ (items : List Item) (t : Tree), t.kinds <+: Item.kinds items → CompletesNode items) ∧
    ∀ items, Item.kinds items = [] → (decodeItems items b = .ok .null ↔
      ∃ es, items.map Item.event? = es.map some ∧ (Counts.zero.addAll es).Fits b) :=
  ⟨fun _ _ _ h hx hy => decodeItems_prefix h b hx hy,
    fun _ _ _ h hx hy => decodeItems_prefix h b hx hy,
    fun _ _ h => completesNode_of_tree h,
    fun _ h => decodeItems_no_node h b⟩

/-- A list closed by its last bracket, one event short of the limit; after it comes a fault in one
stream and a mapping with a list for a key in the other. -/
theorem decode_reads_first_node_list :
    let mark := Source.Mark.start
    let items : List Item := [.event .streamStart mark, .event .documentStart mark,
      .event .sequenceStart mark, .event (.scalar "x" .plain none) mark, .event .sequenceEnd mark]
    let broken := items ++ [.fault .invalidIndentation mark]
    let more := items ++ [.event .documentEnd mark, .event .documentStart mark,
      .event .mappingStart mark, .event .sequenceStart mark]
    (CompletesNode items ∧ items <+: broken ∧ items <+: more) ∧
      decodeItems broken (some { maxEvents := 5 }) = decodeItems more (some { maxEvents := 5 }) ∧
      decodeItems more (some { maxEvents := 5 }) = .ok (.array [.string "x"]) := by
  intro mark items broken more
  have hcompletes : CompletesNode items := by decide
  have hbroken : items <+: broken := List.prefix_append _ _
  have hmore : items <+: more := List.prefix_append _ _
  exact ⟨⟨hcompletes, hbroken, hmore⟩,
    (decode_reads_first_node (some { maxEvents := 5 })).1 items broken more hcompletes hbroken hmore,
    rfl⟩

end YamlCodec
