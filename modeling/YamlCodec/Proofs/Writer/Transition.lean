import YamlCodec.Proofs.Writer.Node
import YamlCodec.Proofs.Writer.Script

/-!
# What an event does to a state

A sink without a limit takes every chunk, so an event that is not refused leads to the state that its
actions settle last, and adds the characters they write.
-/

set_option autoImplicit false

namespace YamlCodec.Writer

/-- The characters that actions write. -/
def written : List Action → List Char
  | [] => []
  | .settle _ :: rest => written rest
  | .write c :: rest => c.toList ++ written rest

theorem written_append (as bs : List Action) : written (as ++ bs) = written as ++ written bs := by
  induction as with
  | nil => rfl
  | cons a as ih =>
    cases a with
    | write c => simp [written, ih]
    | settle t => exact ih

namespace State

/-- The state after an event, if the event is taken. -/
def after? (o : WriterOptions) (s : State) (e : Event) : Option State :=
  match s.actions o e with
  | .ok as => some (settled s as)
  | .error _ => none

/-- The characters that an event writes, if it is taken. -/
def output (o : WriterOptions) (s : State) (e : Event) : List Char :=
  match s.actions o e with
  | .ok as => written as
  | .error _ => []

end State

/-- Where a node may stand. -/
def TakesNode : List Kind → Prop
  | .mapping false :: _ => False
  | _ => True

/-- The kind of the collection that an event starts. -/
def started? : Event → Option Kind
  | .sequenceStart => some .sequence
  | .mappingStart => some (.mapping false)
  | _ => none

/-- The kind of the collection that an event ends. -/
def ended? : Event → Option Kind
  | .sequenceEnd => some .sequence
  | .mappingEnd => some (.mapping false)
  | _ => none

namespace State

def kinds (s : State) : List Kind := s.stack.map Frame.kind

@[simp] theorem beginEntry_kinds (s : State) : s.beginEntry.2.kinds = s.kinds := by
  obtain ⟨stage, stack⟩ := s
  match stack with
  | [] => rfl
  | ⟨.mapping _, _, _, _⟩ :: fs => rfl
  | ⟨.sequence, _, _, _⟩ :: fs => rfl

@[simp] theorem beginEntry_stage (s : State) : s.beginEntry.2.stage = s.stage := by
  obtain ⟨stage, stack⟩ := s
  match stack with
  | [] => rfl
  | ⟨.mapping _, _, _, _⟩ :: fs => rfl
  | ⟨.sequence, _, _, _⟩ :: fs => rfl

theorem takesNode_iff (s : State) (o : WriterOptions) : TakesNode s.kinds ↔ (s.place? o).isSome := by
  obtain ⟨stage, stack⟩ := s
  match stack with
  | [] => simp [TakesNode, kinds, place?, slot]
  | ⟨.sequence, _, _, _⟩ :: fs => simp [TakesNode, kinds, place?, slot]
  | ⟨.mapping true, _, _, _⟩ :: fs => simp [TakesNode, kinds, place?, slot]
  | ⟨.mapping false, _, _, _⟩ :: fs => simp [TakesNode, kinds, place?, slot]

theorem takesNode_of_place {o : WriterOptions} {s : State} {place : Nat × Lead}
    (h : s.place? o = some place) : TakesNode s.kinds := by
  rw [takesNode_iff s o, h]
  rfl

/-- Where no node may stand, a key has to come. -/
theorem key_of_not_takesNode {s : State} (h : ¬ TakesNode s.kinds) :
    ∃ c l n fs, s.stack = ⟨.mapping false, c, l, n⟩ :: fs := by
  obtain ⟨stage, stack⟩ := s
  match stack with
  | [] => exact absurd trivial h
  | ⟨.sequence, _, _, _⟩ :: fs => exact absurd trivial h
  | ⟨.mapping true, _, _, _⟩ :: fs => exact absurd trivial h
  | ⟨.mapping false, c, l, n⟩ :: fs => exact ⟨c, l, n, fs, rfl⟩

theorem actions_scalar (o : WriterOptions) {s : State} (hs : s.stage = .document false)
    (hk : TakesNode s.kinds) (t : String) (p : Presentation) :
    s.actions o (.scalar t p) = .ok (s.writeScalar (render t p)) := by
  obtain ⟨stage, stack⟩ := s
  subst hs
  match stack with
  | [] => rfl
  | ⟨.sequence, _, _, _⟩ :: fs => rfl
  | ⟨.mapping true, _, _, _⟩ :: fs => rfl
  | ⟨.mapping false, _, _, _⟩ :: fs => exact hk.elim

theorem actions_start (o : WriterOptions) {s : State} (hs : s.stage = .document false)
    {e : Event} {k : Kind} (he : started? e = some k) :
    s.actions o e = s.openCollection o k := by
  cases e <;> simp [started?] at he <;> subst he <;> simp [actions, hs, nodeActions]

theorem after_scalar (o : WriterOptions) {s : State} (hs : s.stage = .document false)
    (hk : TakesNode s.kinds) (t : String) (p : Presentation) :
    s.after? o (.scalar t p) = some s.beginEntry.2.endNode := by
  simp only [after?, actions_scalar o hs hk, writeScalar, settled_append, settled_beginEntry]
  rfl

theorem after_key (o : WriterOptions) (c : Nat) (l : Lead) (n : Nat) (fs : List Frame) (t : String)
    (p : Presentation) :
    after? o ⟨.document false, ⟨.mapping false, c, l, n⟩ :: fs⟩ (.scalar t p) =
      some ⟨.document false, ⟨.mapping true, c, l, n + 1⟩ :: fs⟩ := by
  simp only [after?, actions, nodeActions, slot, writeKey, settled_append, settled]

theorem after_start (o : WriterOptions) {s : State} (hs : s.stage = .document false)
    {e : Event} {k : Kind} (he : started? e = some k) :
    s.after? o e =
      (s.place? o).map fun r =>
        { s.beginEntry.2 with stack := ⟨k, r.1, r.2, 0⟩ :: s.beginEntry.2.stack } := by
  rw [after?, actions_start o hs he, openCollection]
  cases hp : s.place? o with
  | none => rfl
  | some r => simp only [settled_append, settled, Option.map_some]

/-- A collection is opened at its place. -/
theorem after_start_at (o : WriterOptions) {s : State} (hs : s.stage = .document false)
    {e : Event} {k : Kind} (he : started? e = some k) {c : Nat} {l : Lead}
    (hp : s.place? o = some (c, l)) :
    s.after? o e = some ⟨.document false, ⟨k, c, l, 0⟩ :: s.beginEntry.2.stack⟩ := by
  rw [after_start o hs he, hp, ← hs, ← beginEntry_stage s]
  rfl

theorem after_end (o : WriterOptions) {e : Event} {k : Kind} (he : ended? e = some k) (c : Nat)
    (l : Lead) (n : Nat) (fs : List Frame) :
    after? o ⟨.document false, ⟨k, c, l, n⟩ :: fs⟩ e = some (endNode ⟨.document false, fs⟩) := by
  cases e <;> simp [ended?] at he <;> subst he <;>
    simp only [after?, actions, nodeActions, closeCollection, settled, settled_append]

theorem after_eq_some {o : WriterOptions} {s t : State} {e : Event} (h : s.after? o e = some t) :
    ∃ as, s.actions o e = .ok as ∧ settled s as = t := by
  rw [after?] at h
  cases ha : s.actions o e with
  | error r => simp [ha] at h
  | ok as => exact ⟨as, rfl, by simpa [ha] using h⟩

/-- Outside a document in progress an event only settles the stage. -/
theorem actions_outside {o : WriterOptions} {s : State} (hs : s.stage ≠ .document false) {e : Event}
    {as : List Action} (ha : s.actions o e = .ok as) :
    ∃ stage, as = [.settle { s with stage }] := by
  obtain ⟨stage, stack⟩ := s
  cases stage with
  | initial | stream | finished =>
    cases e <;> simp [actions] at ha <;> exact ⟨_, ha.symm⟩
  | document done =>
    cases done with
    | false => exact absurd rfl hs
    | true =>
      cases e with
      | documentEnd => exact ⟨_, (Except.ok.inj ha).symm⟩
      | _ => simp [actions] at ha

/-- An end that is not refused is that of the collection on top. -/
theorem actions_end {o : WriterOptions} {s : State} (hs : s.stage = .document false) {e : Event}
    {k : Kind} (he : ended? e = some k) {as : List Action} (ha : s.actions o e = .ok as) :
    ∃ c l n fs brackets, s = ⟨.document false, ⟨k, c, l, n⟩ :: fs⟩ ∧
      s.closeCollection o brackets = .ok as := by
  obtain ⟨stage, stack⟩ := s
  subst hs
  cases e <;> simp [ended?] at he <;> subst he
  · match stack with
    | ⟨.sequence, c, l, n⟩ :: fs => exact ⟨c, l, n, fs, _, rfl, ha⟩
    | [] => simp [actions, nodeActions] at ha
    | ⟨.mapping _, _, _, _⟩ :: _ => simp [actions, nodeActions] at ha
  · match stack with
    | ⟨.mapping false, c, l, n⟩ :: fs => exact ⟨c, l, n, fs, _, rfl, ha⟩
    | [] => simp [actions, nodeActions] at ha
    | ⟨.sequence, _, _, _⟩ :: _ => simp [actions, nodeActions] at ha
    | ⟨.mapping true, _, _, _⟩ :: _ => simp [actions, nodeActions] at ha

/-- What an event does that is taken within a document: it is a node or a key, or it opens or closes a
collection. -/
inductive Moves (o : WriterOptions) (s : State) : Event → State → Prop where
  | scalar (t : String) (p : Presentation) (hk : TakesNode s.kinds) :
      Moves o s (.scalar t p) s.beginEntry.2.endNode
  | key (t : String) (p : Presentation) {c : Nat} {l : Lead} {n : Nat} {fs : List Frame}
      (hs : s.stack = ⟨.mapping false, c, l, n⟩ :: fs) :
      Moves o s (.scalar t p) { s with stack := ⟨.mapping true, c, l, n + 1⟩ :: fs }
  | opens {e : Event} {k : Kind} {c : Nat} {l : Lead} (he : started? e = some k)
      (hp : s.place? o = some (c, l)) :
      Moves o s e { s.beginEntry.2 with stack := ⟨k, c, l, 0⟩ :: s.beginEntry.2.stack }
  | closes {e : Event} {f : Frame} {fs : List Frame} (he : ended? e = some f.kind)
      (hs : s.stack = f :: fs) : Moves o s e (endNode { s with stack := fs })

theorem moves_of_after {o : WriterOptions} {s t : State} (hs : s.stage = .document false) {e : Event}
    (h : s.after? o e = some t) : Moves o s e t := by
  have hstart {k : Kind} (he : started? e = some k) : Moves o s e t := by
    rw [after_start o hs he, Option.map_eq_some_iff] at h
    obtain ⟨⟨c, l⟩, hp, rfl⟩ := h
    exact .opens he hp
  have hend {k : Kind} (he : ended? e = some k) : Moves o s e t := by
    obtain ⟨as, ha, _⟩ := after_eq_some h
    obtain ⟨c, l, n, fs, _, rfl, _⟩ := actions_end hs he ha
    rw [after_end o he, Option.some.injEq] at h
    exact h ▸ .closes he rfl
  cases e with
  | scalar text p =>
    by_cases hk : TakesNode s.kinds
    · rw [after_scalar o hs hk, Option.some.injEq] at h
      exact h ▸ .scalar text p hk
    · obtain ⟨stage, stack⟩ := s
      subst hs
      obtain ⟨c, l, n, fs, rfl⟩ := key_of_not_takesNode hk
      rw [after_key, Option.some.injEq] at h
      exact h ▸ .key text p rfl
  | sequenceStart => exact hstart rfl
  | mappingStart => exact hstart rfl
  | sequenceEnd => exact hend rfl
  | mappingEnd => exact hend rfl
  | _ => simp [after?, actions, hs, nodeActions] at h

end State

namespace Session

theorem perform_unlimited (s : State) (w : String) (as : List Action) :
    perform ⟨s, ⟨w, none⟩⟩ as =
      (⟨settled s as, ⟨w ++ String.ofList (written as), none⟩⟩, true) := by
  induction as generalizing s w with
  | nil => simp [perform, settled, written]
  | cons a as ih =>
    cases a with
    | settle t => exact ih t w
    | write c =>
      simp only [perform, Sink.accept, settled, written]
      rw [ih]
      simp [String.append_assoc]

theorem feed_taken {o : WriterOptions} {s t : State} {e : Event} (w : String)
    (h : s.after? o e = some t) :
    feed o ⟨s, ⟨w, none⟩⟩ e = (⟨t, ⟨w ++ String.ofList (s.output o e), none⟩⟩, none) := by
  unfold State.after? at h
  rw [feed_eq, State.output]
  cases ha : s.actions o e with
  | error r => simp [ha] at h
  | ok as =>
    simp only [ha, Option.some.injEq] at h
    simp only [perform_unlimited, h]

theorem feed_refused {o : WriterOptions} {s : State} {e : Event} (w : String)
    (h : s.after? o e = none) :
    ∃ r, feed o ⟨s, ⟨w, none⟩⟩ e = (⟨s, ⟨w, none⟩⟩, some (.refused r)) := by
  unfold State.after? at h
  rw [feed_eq]
  cases ha : s.actions o e with
  | error r => exact ⟨r, rfl⟩
  | ok as => simp [ha] at h

end Session
end YamlCodec.Writer
