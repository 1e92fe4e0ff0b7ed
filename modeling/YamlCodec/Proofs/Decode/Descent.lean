import YamlCodec.Proofs.Decode.Run

/-!
# Recursive descent over parts

A reader of one node by recursion: a collection is read node by node up to its end. Building with a
stack is this reader, for any parts that may come: it has the same outcome and leaves the same parts.
-/

set_option autoImplicit false

namespace YamlCodec.Decode

/-- What stops a node that has begun when there are no more parts. -/
def Ending.cause : Ending → Error
  | .failed e => e
  | .exhausted last => .endOfInput last

/-- The parts that a reader leaves, which are not more than it was given. -/
abbrev Left (parts : List Part) := { rest : List Part // rest.length ≤ parts.length }

namespace Descent

def keep (parts : List Part) : Left parts := ⟨parts, Nat.le_refl _⟩

def widen {parts more : List Part} (h : parts.length ≤ more.length) (rest : Left parts) :
    Left more :=
  ⟨rest.1, Nat.le_trans rest.2 h⟩

mutual

/-- The node that begins with a part. -/
def node (ending : Ending) (p : Part) (parts : List Part) : Except Error Value × Left parts :=
  match p.kind with
  | .scalar text style tag => (.ok (Scalar.resolve text style tag), keep parts)
  | .alias => (.ok .null, keep parts)
  | .sequenceStart => ((items ending parts).1.map .array, (items ending parts).2)
  | .mappingStart => ((entries ending [] parts).1.map .object, (entries ending [] parts).2)
  | .sequenceEnd => (.error (.unexpected .sequenceEnd p.location), keep parts)
  | .mappingEnd => (.error (.unexpected .mappingEnd p.location), keep parts)
termination_by (parts.length, 1)

/-- Nodes up to the end of their sequence. -/
def items (ending : Ending) (parts : List Part) : Except Error (List Value) × Left parts :=
  match parts with
  | [] => (.error ending.cause, keep [])
  | p :: parts =>
    match p.kind with
    | .sequenceEnd => (.ok [], widen (Nat.le_succ _) (keep parts))
    | _ =>
      match node ending p parts with
      | (.error e, rest) => (.error e, widen (Nat.le_succ _) rest)
      | (.ok v, rest) =>
        ((items ending rest.1).1.map (v :: ·),
          widen (Nat.le_succ_of_le rest.2) (items ending rest.1).2)
termination_by (parts.length, 0)
decreasing_by
  · simp_wf
    omega
  · have := rest.2
    simp_wf
    omega

/-- Keys, each with its value, up to the end of their mapping. -/
def entries (ending : Ending) (found : Entries) (parts : List Part) :
    Except Error Entries × Left parts :=
  match parts with
  | [] => (.error ending.cause, keep [])
  | p :: parts =>
    match p.kind with
    | .mappingEnd => (.ok found, widen (Nat.le_succ _) (keep parts))
    | .scalar key _ _ =>
      ((entryOf ending found key parts).1, widen (Nat.le_succ _) (entryOf ending found key parts).2)
    | .sequenceEnd => (.error (.unexpected .sequenceEnd p.location), widen (Nat.le_succ _) (keep parts))
    | _ => (.error (.unexpected .scalarKey p.location), widen (Nat.le_succ _) (keep parts))
termination_by (parts.length, 0)

/-- The value of a key, then the other entries. A key that was there before gets the new value in its
old place. -/
def entryOf (ending : Ending) (found : Entries) (key : String) (parts : List Part) :
    Except Error Entries × Left parts :=
  match parts with
  | [] => (.error ending.cause, keep [])
  | p :: parts =>
    match node ending p parts with
    | (.error e, rest) => (.error e, widen (Nat.le_succ _) rest)
    | (.ok v, rest) =>
      ((entries ending (found.insert key v) rest.1).1,
        widen (Nat.le_succ_of_le rest.2) (entries ending (found.insert key v) rest.1).2)
termination_by (parts.length, 0)
decreasing_by
  · simp_wf
    omega
  · have := rest.2
    simp_wf
    omega

end

/-- One node, or null where there is none. -/
def read (ending : Ending) : List Part → Except Error Value × List Part
  | [] => (atEnd [] ending, [])
  | p :: parts => ((node ending p parts).1, (node ending p parts).2.1)

/-- Goes on with a node that was read, or ends with the error of reading it. -/
def resume (ending : Ending) (stack : List Frame) (rest : List Part) :
    Except Error Value → Except Error Value × List Part
  | .error e => (.error e, rest)
  | .ok v => proceed ending rest (place v stack)

section
variable (ending : Ending)

mutual

/-- Where a node may stand, building goes on after the node that the reader finds there. The end of
the sequence on top is no node. -/
theorem build_node (p : Part) (parts : List Part) (stack : List Frame)
    (hs : keyAwaited stack = false)
    (he : ∀ found below, stack = .sequence found :: below → p.kind ≠ .sequenceEnd) :
    build ending stack (p :: parts) =
      resume ending stack (node ending p parts).2.1 (node ending p parts).1 := by
  obtain ⟨kind, l⟩ := p
  rw [build_cons, node]
  match kind with
  | .scalar text style tag =>
    rw [accept_scalar hs]
    rfl
  | .alias => simp [accept, hs, resume, keep]
  | .sequenceStart =>
    have hitems := build_items parts [] stack
    simpa [accept, hs, proceed] using hitems
  | .mappingStart =>
    have hentries := build_entries parts [] stack
    simpa [accept, hs, proceed] using hentries
  | .sequenceEnd =>
    match stack with
    | [] => rfl
    | .sequence found :: below => exact absurd rfl (he found below rfl)
    | .mapping _ _ :: below => rfl
  | .mappingEnd =>
    match stack with
    | [] => rfl
    | .sequence _ :: below => rfl
    | .mapping _ (some _) :: below => rfl
    | .mapping _ none :: below => simp [keyAwaited] at hs
termination_by (parts.length, 1)

theorem build_items (parts : List Part) (found : List Value) (stack : List Frame) :
    build ending (.sequence found :: stack) parts =
      resume ending stack (items ending parts).2.1
        ((items ending parts).1.map fun vs => .array (found.reverse ++ vs)) := by
  match parts with
  | [] =>
    rw [items]
    cases ending <;> rfl
  | p :: parts =>
    by_cases hp : p.kind = .sequenceEnd
    · rw [items, hp, build_cons]
      simp [accept, hp, resume, widen, keep, Except.map]
    · have hnode := build_node p parts (.sequence found :: stack) rfl (fun _ _ _ => hp)
      rw [hnode, items]
      split
      · contradiction
      · split
        · rename_i e rest heq
          simp [heq, resume, widen, Except.map]
        · rename_i v rest heq
          have hitems := build_items rest.1 (v :: found) stack
          rw [heq]
          change build ending (.sequence (v :: found) :: stack) rest.1 = _
          rw [hitems]
          cases (items ending rest.1).1 <;> simp [Except.map, resume, widen]
termination_by (parts.length, 0)

theorem build_entries (parts : List Part) (found : Entries) (stack : List Frame) :
    build ending (.mapping found none :: stack) parts =
      resume ending stack (entries ending found parts).2.1
        ((entries ending found parts).1.map .object) := by
  match parts with
  | [] =>
    rw [entries]
    cases ending <;> rfl
  | ⟨kind, l⟩ :: parts =>
    rw [build_cons, entries]
    match kind with
    | .mappingEnd => rfl
    | .sequenceEnd => rfl
    | .alias => rfl
    | .sequenceStart => rfl
    | .mappingStart => rfl
    | .scalar key style tag => exact build_entryOf parts found key stack
termination_by (parts.length, 0)

theorem build_entryOf (parts : List Part) (found : Entries) (key : String) (stack : List Frame) :
    build ending (.mapping found (some key) :: stack) parts =
      resume ending stack (entryOf ending found key parts).2.1
        ((entryOf ending found key parts).1.map .object) := by
  match parts with
  | [] =>
    rw [entryOf]
    cases ending <;> rfl
  | p :: parts =>
    have hnode := build_node p parts (.mapping found (some key) :: stack) rfl
      (fun _ _ h => by simp at h)
    rw [hnode, entryOf]
    split
    · rename_i e rest heq
      simp [heq, resume, widen, Except.map]
    · rename_i v rest heq
      rw [heq]
      exact build_entries rest.1 (found.insert key v) stack
termination_by (parts.length, 0)

end

theorem build_eq_read (parts : List Part) : build ending [] parts = read ending parts := by
  match parts with
  | [] => rfl
  | p :: parts =>
    rw [build_node ending p parts [] rfl (fun _ _ h => by simp at h), read]
    cases (node ending p parts).1 <;> rfl

mutual

/-- A node that is read is a tree: the parts used are those that tell it. -/
theorem tree_of_node (p : Part) (parts : List Part) {v : Value} {rest : Left parts}
    (h : node ending p parts = (.ok v, rest)) :
    ∃ (t : Tree) (used : List Part), parts = used ++ rest.1 ∧
      (p :: used).map Part.kind = t.kinds ∧ t.value? = some v := by
  obtain ⟨kind, l⟩ := p
  rw [node] at h
  match kind with
  | .scalar text style tag =>
    obtain ⟨hv, rfl⟩ := Prod.mk.inj h
    exact ⟨.scalar text style tag, [], rfl, rfl, congrArg some (Except.ok.inj hv)⟩
  | .alias =>
    obtain ⟨hv, rfl⟩ := Prod.mk.inj h
    exact ⟨.alias, [], rfl, rfl, congrArg some (Except.ok.inj hv)⟩
  | .sequenceStart =>
    obtain ⟨hv, rfl⟩ := Prod.mk.inj h
    cases hr : (items ending parts).1 with
    | error e => simp [hr, Except.map] at hv
    | ok vs =>
      obtain rfl : Value.array vs = v := by simpa [hr, Except.map] using hv
      obtain ⟨ts, used, hused, hkinds, hvs⟩ := trees_of_items parts (Prod.ext hr rfl)
      refine ⟨.sequence ts, used, hused, ?_, ?_⟩
      · rw [List.map_cons, hkinds, Tree.kinds]
      · rw [Tree.value?, hvs]
        rfl
  | .mappingStart =>
    obtain ⟨hv, rfl⟩ := Prod.mk.inj h
    cases hr : (entries ending [] parts).1 with
    | error e => simp [hr, Except.map] at hv
    | ok es =>
      obtain rfl : Value.object es = v := by simpa [hr, Except.map] using hv
      obtain ⟨ts, used, hused, hkinds, hes⟩ := trees_of_entries parts [] (Prod.ext hr rfl)
      refine ⟨.mapping ts, used, hused, ?_, ?_⟩
      · rw [List.map_cons, hkinds, Tree.kinds]
      · rw [Tree.value?, hes]
        rfl
  | .sequenceEnd => simp at h
  | .mappingEnd => simp at h
termination_by (parts.length, 1)

theorem trees_of_items (parts : List Part) {vs : List Value} {rest : Left parts}
    (h : items ending parts = (.ok vs, rest)) :
    ∃ (ts : List Tree) (used : List Part), parts = used ++ rest.1 ∧
      used.map Part.kind = Tree.itemKinds ts ++ [.sequenceEnd] ∧
      Tree.itemValues? ts = some vs := by
  match parts with
  | [] =>
    rw [items] at h
    simp at h
  | p :: parts =>
    rw [items] at h
    split at h
    · rename_i hp
      obtain ⟨hv, rfl⟩ := Prod.mk.inj h
      exact ⟨[], [p], rfl, by simp [hp, Tree.itemKinds], congrArg some (Except.ok.inj hv)⟩
    · split at h
      · simp at h
      · rename_i v left heq
        obtain ⟨hv, rfl⟩ := Prod.mk.inj h
        cases hr : (items ending left.1).1 with
        | error e => simp [hr, Except.map] at hv
        | ok ws =>
          obtain rfl : v :: ws = vs := by simpa [hr, Except.map] using hv
          obtain ⟨t, used, hused, hkinds, ht⟩ := tree_of_node p parts heq
          obtain ⟨ts, used', hused', hkinds', hts⟩ := trees_of_items left.1 (Prod.ext hr rfl)
          refine ⟨t :: ts, p :: used ++ used', ?_, ?_, ?_⟩
          · rw [List.cons_append, List.cons_append, List.append_assoc, widen, ← hused', ← hused]
          · rw [List.map_append, hkinds, hkinds', Tree.itemKinds, List.append_assoc]
          · rw [Tree.itemValues?, ht, hts]
            rfl
termination_by (parts.length, 0)

theorem trees_of_entries (parts : List Part) (found : Entries) {es : Entries} {rest : Left parts}
    (h : entries ending found parts = (.ok es, rest)) :
    ∃ (ts : List (Tree × Tree)) (used : List Part), parts = used ++ rest.1 ∧
      used.map Part.kind = Tree.entryKinds ts ++ [.mappingEnd] ∧
      Tree.insertAll? found ts = some es := by
  match parts with
  | [] =>
    rw [entries] at h
    simp at h
  | p :: parts =>
    rw [entries] at h
    split at h
    · rename_i hp
      obtain ⟨hv, rfl⟩ := Prod.mk.inj h
      exact ⟨[], [p], rfl, by simp [hp, Tree.entryKinds], congrArg some (Except.ok.inj hv)⟩
    · rename_i key style tag hp
      obtain ⟨hv, rfl⟩ := Prod.mk.inj h
      obtain ⟨t, ts, used, hused, hkinds, hes⟩ :=
        trees_of_entryOf parts found key (Prod.ext hv rfl)
      refine ⟨(.scalar key style tag, t) :: ts, p :: used, ?_, ?_, hes style tag⟩
      · rw [List.cons_append, widen, ← hused]
      · rw [List.map_cons, hkinds, hp, Tree.entryKinds, Tree.kinds]
        simp
    · simp at h
    · simp at h
termination_by (parts.length, 0)

theorem trees_of_entryOf (parts : List Part) (found : Entries) (key : String) {es : Entries}
    {rest : Left parts} (h : entryOf ending found key parts = (.ok es, rest)) :
    ∃ (t : Tree) (ts : List (Tree × Tree)) (used : List Part), parts = used ++ rest.1 ∧
      used.map Part.kind = t.kinds ++ (Tree.entryKinds ts ++ [.mappingEnd]) ∧
      ∀ style tag, Tree.insertAll? found ((.scalar key style tag, t) :: ts) = some es := by
  match parts with
  | [] =>
    rw [entryOf] at h
    simp at h
  | p :: parts =>
    rw [entryOf] at h
    split at h
    · simp at h
    · rename_i v left heq
      obtain ⟨hv, rfl⟩ := Prod.mk.inj h
      obtain ⟨t, used, hused, hkinds, ht⟩ := tree_of_node p parts heq
      obtain ⟨ts, used', hused', hkinds', hts⟩ :=
        trees_of_entries left.1 (found.insert key v) (Prod.ext hv rfl)
      refine ⟨t, ts, p :: used ++ used', ?_, ?_, fun style tag => ?_⟩
      · rw [List.cons_append, List.cons_append, List.append_assoc, widen, ← hused', ← hused]
      · rw [List.map_append, hkinds, hkinds']
      · rw [Tree.insertAll?, Tree.key?, Option.bind_some, ht, Option.bind_some, hts]
termination_by (parts.length, 0)

end

/-- What is built is null, there being no part, or the value of the tree that the parts begin with;
nothing after the tree is used. -/
theorem tree_of_build {parts rest : List Part} {v : Value}
    (h : build ending [] parts = (.ok v, rest)) :
    (parts = [] ∧ rest = [] ∧ v = .null) ∨
      ∃ (t : Tree) (used : List Part), parts = used ++ rest ∧ used.map Part.kind = t.kinds ∧
        t.value? = some v := by
  rw [build_eq_read] at h
  match parts with
  | [] =>
    obtain ⟨hv, rfl⟩ := Prod.mk.inj h
    cases ending with
    | failed e => simp [atEnd] at hv
    | exhausted last => exact .inl ⟨rfl, rfl, (Except.ok.inj hv).symm⟩
  | p :: parts =>
    obtain ⟨hv, rfl⟩ := Prod.mk.inj h
    obtain ⟨t, used, hused, hkinds, ht⟩ := tree_of_node ending p parts (Prod.ext hv rfl)
    exact .inr ⟨t, p :: used, by rw [List.cons_append, ← hused], hkinds, ht⟩

end

end Descent

/-- Below the collection on top every open mapping has the key whose value is being read. -/
def Keyed : List Frame → Prop
  | [] => True
  | _ :: stack => keyAwaited stack = false ∧ Keyed stack

/-- What a part does that is taken: it is a key, or it begins a collection or completes a node where
a node may stand. -/
inductive Taken : List Frame → Part.Kind → Progress → Prop where
  | key (found : Entries) (below : List Frame) (text : String) (style : Scalar.Style)
      (tag : Option String) :
      Taken (.mapping found none :: below) (.scalar text style tag)
        (.going (.mapping found (some text) :: below))
  | scalar {stack : List Frame} (text : String) (style : Scalar.Style) (tag : Option String)
      (hs : keyAwaited stack = false) :
      Taken stack (.scalar text style tag) (place (Scalar.resolve text style tag) stack)
  | reference {stack : List Frame} (hs : keyAwaited stack = false) :
      Taken stack .alias (place .null stack)
  | sequenceStart {stack : List Frame} (hs : keyAwaited stack = false) :
      Taken stack .sequenceStart (.going (.sequence [] :: stack))
  | mappingStart {stack : List Frame} (hs : keyAwaited stack = false) :
      Taken stack .mappingStart (.going (.mapping [] none :: stack))
  | sequenceEnd {below : List Frame} (found : List Value) (hs : keyAwaited below = false) :
      Taken (.sequence found :: below) .sequenceEnd (place (.array found.reverse) below)
  | mappingEnd {below : List Frame} (found : Entries) (hs : keyAwaited below = false) :
      Taken (.mapping found none :: below) .mappingEnd (place (.object found) below)

theorem accept_taken {stack : List Frame} (hk : Keyed stack) {p : Part} {g : Progress}
    (h : accept stack p = .ok g) : Taken stack p.kind g := by
  obtain ⟨kind, l⟩ := p
  match kind with
  | .scalar text style tag =>
    match stack with
    | .mapping found none :: below =>
      obtain rfl := Except.ok.inj h
      exact .key found below text style tag
    | [] =>
      obtain rfl := Except.ok.inj h
      exact .scalar text style tag rfl
    | .sequence _ :: _ =>
      obtain rfl := Except.ok.inj h
      exact .scalar text style tag rfl
    | .mapping _ (some _) :: _ =>
      obtain rfl := Except.ok.inj h
      exact .scalar text style tag rfl
  | .alias =>
    simp only [accept] at h
    split at h
    · simp at h
    · rename_i hs
      obtain rfl := Except.ok.inj h
      exact .reference (by simpa using hs)
  | .sequenceStart =>
    simp only [accept] at h
    split at h
    · simp at h
    · rename_i hs
      obtain rfl := Except.ok.inj h
      exact .sequenceStart (by simpa using hs)
  | .mappingStart =>
    simp only [accept] at h
    split at h
    · simp at h
    · rename_i hs
      obtain rfl := Except.ok.inj h
      exact .mappingStart (by simpa using hs)
  | .sequenceEnd =>
    match stack with
    | .sequence found :: below =>
      obtain rfl := Except.ok.inj h
      exact .sequenceEnd found hk.1
    | [] => simp [accept] at h
    | .mapping _ _ :: _ => simp [accept] at h
  | .mappingEnd =>
    match stack with
    | .mapping found none :: below =>
      obtain rfl := Except.ok.inj h
      exact .mappingEnd found hk.1
    | [] => simp [accept] at h
    | .sequence _ :: _ => simp [accept] at h
    | .mapping _ (some _) :: _ => simp [accept] at h

theorem place_keyed {stack stack' : List Frame} {v : Value} (hk : Keyed stack)
    (h : place v stack = .going stack') : Keyed stack' := by
  match stack with
  | [] => simp [place] at h
  | .sequence _ :: _ =>
    obtain rfl := Progress.going.inj h
    exact hk
  | .mapping _ (some _) :: _ =>
    obtain rfl := Progress.going.inj h
    exact hk
  | .mapping _ none :: _ =>
    obtain rfl := Progress.going.inj h
    exact hk

theorem accept_keyed {stack stack' : List Frame} {p : Part} (hk : Keyed stack)
    (h : accept stack p = .ok (.going stack')) : Keyed stack' := by
  have ht := accept_taken hk h
  generalize p.kind = kind at ht
  generalize hg : Progress.going stack' = g at ht
  cases ht with
  | key found below text style tag =>
    obtain rfl := Progress.going.inj hg
    exact hk
  | scalar text style tag hs => exact place_keyed hk hg.symm
  | reference hs => exact place_keyed hk hg.symm
  | sequenceStart hs =>
    obtain rfl := Progress.going.inj hg
    exact ⟨hs, hk⟩
  | mappingStart hs =>
    obtain rfl := Progress.going.inj hg
    exact ⟨hs, hk⟩
  | sequenceEnd found hs => exact place_keyed hk.2 hg.symm
  | mappingEnd found hs => exact place_keyed hk.2 hg.symm

theorem stackAfter_keyed {stack stack' : List Frame} {parts : List Part} (hk : Keyed stack)
    (h : stackAfter? stack parts = some stack') : Keyed stack' := by
  induction parts generalizing stack with
  | nil =>
    obtain rfl : stack = stack' := Option.some.inj h
    exact hk
  | cons p parts ih =>
    rw [stackAfter?] at h
    cases ha : accept stack p with
    | error e => simp [ha] at h
    | ok g =>
      cases g with
      | done v => simp [ha] at h
      | going s =>
        rw [ha] at h
        exact ih (accept_keyed hk ha) h

/-- The place of an item in the text. -/
def placeOf : Item → Location
  | .event _ mark => .ofMark mark
  | .fault _ mark => .ofMark mark

theorem ofItems_exhausted {m : Option Meter} {last l : Location} {items : List Item}
    (h : (Supply.ofItems m last items).ending = .exhausted l) :
    l = (items.map placeOf).getLastD last := by
  induction items generalizing m last with
  | nil =>
    obtain rfl := Ending.exhausted.inj h
    rfl
  | cons item items ih =>
    cases item with
    | fault f mark => simp [Supply.ofItems] at h
    | event e mark =>
      rw [Supply.ofItems] at h
      split at h
      · simp at h
      · rw [cons_ending] at h
        rw [List.map_cons, List.getLastD_cons]
        exact ih h

/-- Building with a stack is recursive descent, on any parts and whatever ends them. A value that is
built is that of the tree told by the parts used. Every part that is taken on the way finds its
place, so no node is left out; and where the items of a stream run out, the place told is that of
the last of them. -/
theorem build_is_descent :
    (∀ (ending : Ending) (parts : List Part),
      build ending [] parts = Descent.read ending parts ∧
      (∀ v rest, build ending [] parts = (.ok v, rest) →
        (parts = [] ∧ rest = [] ∧ v = .null) ∨
          ∃ (t : Tree) (used : List Part), parts = used ++ rest ∧
            used.map Part.kind = t.kinds ∧ t.value? = some v)) ∧
    (∀ before stack, stackAfter? [] before = some stack →
      ∀ p g, accept stack p = .ok g → Taken stack p.kind g) ∧
    ∀ (m : Option Meter) (items : List Item) (l : Location),
      (Supply.ofItems m .unknown items).ending = .exhausted l →
        l = (items.map placeOf).getLastD .unknown :=
  ⟨fun ending parts =>
      ⟨Descent.build_eq_read ending parts, fun _ _ h => Descent.tree_of_build ending h⟩,
    fun _ _ hs _ _ h => accept_taken (stackAfter_keyed (show Keyed [] from trivial) hs) h,
    fun _ _ _ h => ofItems_exhausted h⟩

end YamlCodec.Decode
