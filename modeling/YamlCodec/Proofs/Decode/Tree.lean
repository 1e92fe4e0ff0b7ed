import YamlCodec.Decode.Build

/-!
# Trees of parts

A node of a document as a tree, whose keys may be any nodes, with the parts that tell it and the
value it denotes. Building from the parts of a tree puts this value where the tree begins and goes on
after it, or ends at the first key that is not a scalar.
-/

set_option autoImplicit false

namespace YamlCodec.Decode

inductive Tree where
  | scalar (text : String) (style : Scalar.Style) (tag : Option String)
  | alias
  | sequence (items : List Tree)
  | mapping (entries : List (Tree × Tree))

namespace Tree

mutual

/-- The parts that tell a tree. -/
def kinds : Tree → List Part.Kind
  | scalar text style tag => [.scalar text style tag]
  | .alias => [.alias]
  | sequence items => .sequenceStart :: (itemKinds items ++ [.sequenceEnd])
  | mapping entries => .mappingStart :: (entryKinds entries ++ [.mappingEnd])

def itemKinds : List Tree → List Part.Kind
  | [] => []
  | t :: rest => kinds t ++ itemKinds rest

def entryKinds : List (Tree × Tree) → List Part.Kind
  | [] => []
  | (k, t) :: rest => kinds k ++ (kinds t ++ entryKinds rest)

end

/-- The text of a key, which is not resolved. -/
def key? : Tree → Option String
  | scalar text _ _ => some text
  | _ => none

mutual

/-- The value of a tree whose keys are scalars. -/
def value? : Tree → Option Value
  | scalar text style tag => some (Scalar.resolve text style tag)
  | .alias => some .null
  | sequence items => (itemValues? items).map .array
  | mapping entries => (insertAll? [] entries).map .object

def itemValues? : List Tree → Option (List Value)
  | [] => some []
  | t :: rest => (value? t).bind fun v => (itemValues? rest).map (v :: ·)

/-- Entries with those of a mapping inserted one after the other. -/
def insertAll? (found : Entries) : List (Tree × Tree) → Option Entries
  | [] => some found
  | (k, t) :: rest =>
    k.key?.bind fun key => (value? t).bind fun v => insertAll? (found.insert key v) rest

end

end Tree

/-- Goes on after a part that was taken. -/
def proceed (ending : Ending) (parts : List Part) : Progress → Except Error Value × List Part
  | .done v => (.ok v, parts)
  | .going stack => build ending stack parts

theorem build_cons (ending : Ending) (stack : List Frame) (p : Part) (parts : List Part) :
    build ending stack (p :: parts) =
      match accept stack p with
      | .error e => (.error e, parts)
      | .ok g => proceed ending parts g := by
  rw [build]
  cases accept stack p with
  | error e => rfl
  | ok g => cases g <;> rfl

/-- The build fails at a key that is not a scalar. -/
def StopsAtKey (r : Except Error Value × List Part) : Prop :=
  ∃ l, r.1 = .error (.unexpected .scalarKey l)

theorem accept_scalar {stack : List Frame} (hs : keyAwaited stack = false) (text : String)
    (style : Scalar.Style) (tag : Option String) (l : Location) :
    accept stack ⟨.scalar text style tag, l⟩ =
      .ok (place (Scalar.resolve text style tag) stack) := by
  match stack with
  | [] => rfl
  | .sequence _ :: _ => rfl
  | .mapping _ (some _) :: _ => rfl
  | .mapping _ none :: _ => simp [keyAwaited] at hs

theorem build_key {t : Tree} (hk : t.key? = none) (ending : Ending) (found : Entries)
    (stack : List Frame) {parts rest : List Part} (hp : parts.map Part.kind = t.kinds) :
    StopsAtKey (build ending (.mapping found none :: stack) (parts ++ rest)) := by
  cases t with
  | scalar text style tag => simp [Tree.key?] at hk
  | _ =>
    match parts with
    | [] => simp [Tree.kinds] at hp
    | ⟨kind, l⟩ :: parts =>
      simp only [Tree.kinds, List.map_cons, List.cons.injEq] at hp
      obtain ⟨rfl, _⟩ := hp
      exact ⟨l, rfl⟩

/-- Parts told by a collection: its start, what is inside, and its end. -/
theorem parts_of_collection {parts : List Part} {a b : Part.Kind} {inner : List Part.Kind}
    (hp : parts.map Part.kind = a :: (inner ++ [b])) :
    ∃ l ps m, parts = ⟨a, l⟩ :: (ps ++ [⟨b, m⟩]) ∧ ps.map Part.kind = inner := by
  obtain ⟨⟨_, l⟩, ps, rfl, rfl, hps⟩ := List.map_eq_cons_iff.mp hp
  obtain ⟨ps, qs, rfl, hinner, hq⟩ := List.map_eq_append_iff.mp hps
  obtain ⟨⟨_, m⟩, rs, rfl, rfl, hr⟩ := List.map_eq_cons_iff.mp hq
  obtain rfl : rs = [] := by simpa using hr
  exact ⟨l, ps, m, rfl, hinner⟩

section
variable (ending : Ending)

mutual

theorem build_tree (t : Tree) (stack : List Frame) (hs : keyAwaited stack = false)
    {parts : List Part} (hp : parts.map Part.kind = t.kinds) (rest : List Part) :
    (∃ v, t.value? = some v ∧
      build ending stack (parts ++ rest) = proceed ending rest (place v stack)) ∨
    (t.value? = none ∧ StopsAtKey (build ending stack (parts ++ rest))) := by
  match t with
  | .scalar text style tag =>
    obtain ⟨⟨_, l⟩, ps, rfl, rfl, hps⟩ := List.map_eq_cons_iff.mp hp
    obtain rfl : ps = [] := by simpa using hps
    refine .inl ⟨Scalar.resolve text style tag, rfl, ?_⟩
    rw [List.cons_append, List.nil_append, build_cons, accept_scalar hs]
  | .alias =>
    obtain ⟨⟨_, l⟩, ps, rfl, rfl, hps⟩ := List.map_eq_cons_iff.mp hp
    obtain rfl : ps = [] := by simpa using hps
    refine .inl ⟨.null, rfl, ?_⟩
    rw [List.cons_append, List.nil_append, build_cons]
    simp [accept, hs]
  | .sequence items =>
    obtain ⟨l, ps, m, rfl, hps⟩ := parts_of_collection hp
    have hopen : build ending stack (⟨.sequenceStart, l⟩ :: (ps ++ [⟨.sequenceEnd, m⟩]) ++ rest) =
        build ending (.sequence [] :: stack) (ps ++ (⟨.sequenceEnd, m⟩ :: rest)) := by
      rw [List.cons_append, build_cons]
      simp [accept, hs, proceed]
    rw [hopen, Tree.value?]
    rcases build_items items [] stack hps (⟨.sequenceEnd, m⟩ :: rest) with ⟨vs, hv, hb⟩ | ⟨hv, hb⟩
    · refine .inl ⟨.array vs, by rw [hv]; rfl, ?_⟩
      rw [hb, build_cons]
      simp [accept]
    · exact .inr ⟨by rw [hv]; rfl, hb⟩
  | .mapping entries =>
    obtain ⟨l, ps, m, rfl, hps⟩ := parts_of_collection hp
    have hopen : build ending stack (⟨.mappingStart, l⟩ :: (ps ++ [⟨.mappingEnd, m⟩]) ++ rest) =
        build ending (.mapping [] none :: stack) (ps ++ (⟨.mappingEnd, m⟩ :: rest)) := by
      rw [List.cons_append, build_cons]
      simp [accept, hs, proceed]
    rw [hopen, Tree.value?]
    rcases build_entries entries [] stack hps (⟨.mappingEnd, m⟩ :: rest) with ⟨es, hv, hb⟩ | ⟨hv, hb⟩
    · refine .inl ⟨.object es, by rw [hv]; rfl, ?_⟩
      rw [hb, build_cons]
      simp [accept]
    · exact .inr ⟨by rw [hv]; rfl, hb⟩

theorem build_items (items : List Tree) (found : List Value) (stack : List Frame)
    {parts : List Part} (hp : parts.map Part.kind = Tree.itemKinds items) (rest : List Part) :
    (∃ vs, Tree.itemValues? items = some vs ∧
      build ending (.sequence found :: stack) (parts ++ rest) =
        build ending (.sequence (vs.reverse ++ found) :: stack) rest) ∨
    (Tree.itemValues? items = none ∧
      StopsAtKey (build ending (.sequence found :: stack) (parts ++ rest))) := by
  match items with
  | [] =>
    obtain rfl : parts = [] := by simpa [Tree.itemKinds] using hp
    exact .inl ⟨[], rfl, rfl⟩
  | t :: items =>
    obtain ⟨ps, qs, rfl, hps, hqs⟩ := List.map_eq_append_iff.mp hp
    rw [List.append_assoc, Tree.itemValues?]
    rcases build_tree t (.sequence found :: stack) rfl hps (qs ++ rest) with
      ⟨v, hv, hb⟩ | ⟨hv, hb⟩
    · rw [hb, hv]
      rcases build_items items (v :: found) stack hqs rest with ⟨vs, hvs, hb⟩ | ⟨hvs, hb⟩
      · refine .inl ⟨v :: vs, by rw [hvs]; rfl, ?_⟩
        simp [place, proceed, hb]
      · exact .inr ⟨by rw [hvs]; rfl, hb⟩
    · exact .inr ⟨by rw [hv]; rfl, hb⟩

theorem build_entries (entries : List (Tree × Tree)) (found : Entries) (stack : List Frame)
    {parts : List Part} (hp : parts.map Part.kind = Tree.entryKinds entries) (rest : List Part) :
    (∃ es, Tree.insertAll? found entries = some es ∧
      build ending (.mapping found none :: stack) (parts ++ rest) =
        build ending (.mapping es none :: stack) rest) ∨
    (Tree.insertAll? found entries = none ∧
      StopsAtKey (build ending (.mapping found none :: stack) (parts ++ rest))) := by
  match entries with
  | [] =>
    obtain rfl : parts = [] := by simpa [Tree.entryKinds] using hp
    exact .inl ⟨found, rfl, rfl⟩
  | (k, t) :: entries =>
    obtain ⟨ks, ps, rfl, hks, hps⟩ := List.map_eq_append_iff.mp hp
    obtain ⟨ps, qs, rfl, hps, hqs⟩ := List.map_eq_append_iff.mp hps
    rw [List.append_assoc, List.append_assoc, Tree.insertAll?]
    match hk : k.key? with
    | none => exact .inr ⟨rfl, build_key hk ending found stack hks⟩
    | some key =>
      have hkey : build ending (.mapping found none :: stack) (ks ++ (ps ++ (qs ++ rest))) =
          build ending (.mapping found (some key) :: stack) (ps ++ (qs ++ rest)) := by
        match k, hk with
        | .scalar text style tag, hk =>
          obtain rfl : text = key := by simpa [Tree.key?] using hk
          obtain ⟨⟨_, l⟩, ks, rfl, rfl, hn⟩ := List.map_eq_cons_iff.mp hks
          obtain rfl : ks = [] := by simpa using hn
          rfl
      rw [hkey]
      rcases build_tree t (.mapping found (some key) :: stack) rfl hps (qs ++ rest) with
        ⟨v, hv, hb⟩ | ⟨hv, hb⟩
      · rw [hb, hv]
        exact build_entries entries (found.insert key v) stack hqs rest
      · exact .inr ⟨by rw [hv]; rfl, hb⟩

end

end
end YamlCodec.Decode
