import Mathlib.Data.List.Chain
import YamlCodec.Proofs.Writer.Failure

/-!
# How open collections nest

Where a collection stands is settled when it starts, by the collection around it, and neither of the two
moves before it ends. So the stack can be read off as it is: the root stands at the start of the line, and
every other collection where the one below it on the stack has put it. This holds whichever writes fail.
-/

set_option autoImplicit false

namespace YamlCodec.Writer

/-- Where the entries of a collection stand within the one around it: two columns further in, behind the
dash, or further in by the step, on the line after the key. A step of zero counts as one. -/
def Frame.Inside (o : WriterOptions) (f around : Frame) : Prop :=
  match around.kind with
  | .sequence => f.column = o.column (around.column + 2) ∧ f.lead = .inline
  | .mapping _ => f.column = o.column (around.column + max 1 o.indentStep) ∧ f.lead = .newline

namespace Frame.Inside
variable {o : WriterOptions} {f around : Frame} (h : f.Inside o around)
include h

theorem lead_ne : f.lead ≠ .lineStart := by
  unfold Inside at h
  split at h <;> simp [h.2]

theorem column_lt (ho : o.columnLimit = none) : around.column < f.column := by
  have hcolumn (n : Nat) : o.column n = n := by rw [WriterOptions.column, ho]
  unfold Inside at h
  split at h <;> rw [hcolumn] at h <;> omega

end Frame.Inside

namespace State

theorem place?_cons {o : WriterOptions} {stage : Stage} {f around : Frame} {fs : List Frame} :
    place? o ⟨stage, around :: fs⟩ = some (f.column, f.lead) ↔
      around.kind ≠ .mapping false ∧ f.Inside o around := by
  obtain ⟨kind, column, lead, length⟩ := around
  match kind with
  | .sequence => simp [place?, slot, Frame.Inside, eq_comm]
  | .mapping true => simp [place?, slot, Frame.Inside, eq_comm]
  | .mapping false => simp [place?, slot]

@[simp] theorem beginEntry_place? (s : State) (o : WriterOptions) :
    s.beginEntry.2.place? o = s.place? o := by
  obtain ⟨stage, stack⟩ := s
  match stack with
  | [] => rfl
  | ⟨.sequence, _, _, _⟩ :: fs => rfl
  | ⟨.mapping _, _, _, _⟩ :: fs => rfl

end State

/-- Open collections, innermost first: the root at the start of the line, and every other one inside the
next, which is not waiting for a key. -/
inductive Placed (o : WriterOptions) : List Frame → Prop where
  | nil : Placed o []
  | root {f : Frame} (hcolumn : f.column = 0) (hlead : f.lead = .lineStart) : Placed o [f]
  | inside {f around : Frame} {fs : List Frame} (hkind : around.kind ≠ .mapping false)
      (hf : f.Inside o around) (h : Placed o (around :: fs)) : Placed o (f :: around :: fs)

/-- A collection is placed just where it would be opened. -/
theorem placed_cons {o : WriterOptions} (stage : Stage) {f : Frame} {fs : List Frame} :
    Placed o (f :: fs) ↔
      State.place? o ⟨stage, fs⟩ = some (f.column, f.lead) ∧ Placed o fs := by
  match fs with
  | [] =>
    constructor
    · intro h
      cases h with
      | root hcolumn hlead => exact ⟨by rw [hcolumn, hlead]; rfl, .nil⟩
    · rintro ⟨hp, -⟩
      obtain ⟨hcolumn, hlead⟩ : 0 = f.column ∧ .lineStart = f.lead := by simpa [State.place?, State.slot] using hp
      exact .root hcolumn.symm hlead.symm
  | around :: fs =>
    rw [State.place?_cons]
    constructor
    · intro h
      cases h with
      | inside hkind hf h => exact ⟨⟨hkind, hf⟩, h⟩
    · rintro ⟨⟨hkind, hf⟩, h⟩
      exact .inside hkind hf h

namespace Placed
variable {o : WriterOptions} {s t : State} {f g : Frame} {fs : List Frame}

theorem tail (h : Placed o (f :: fs)) : Placed o fs :=
  ((placed_cons (.document false)).mp h).2

/-- Neither the kind of the innermost collection nor the number of its entries makes a difference. -/
theorem congr_head (h : Placed o (f :: fs)) (hcolumn : g.column = f.column)
    (hlead : g.lead = f.lead) : Placed o (g :: fs) := by
  rw [placed_cons (.document false)] at h ⊢
  rwa [hcolumn, hlead]

theorem beginEntry (h : Placed o s.stack) : Placed o s.beginEntry.2.stack := by
  obtain ⟨stage, stack⟩ := s
  match stack with
  | [] => exact h
  | ⟨.mapping _, _, _, _⟩ :: fs => exact h
  | ⟨.sequence, _, _, _⟩ :: fs => exact h.congr_head rfl rfl

theorem endNode (h : Placed o s.stack) : Placed o s.endNode.stack := by
  obtain ⟨stage, stack⟩ := s
  match stack with
  | [] => exact h
  | ⟨.sequence, _, _, _⟩ :: fs => exact h
  | ⟨.mapping _, _, _, _⟩ :: fs => exact h.congr_head rfl rfl

section
variable {e : Event} (h : Placed o s.stack)
include h

theorem after (ht : s.after? o e = some t) : Placed o t.stack := by
  by_cases hs : s.stage = .document false
  · cases State.moves_of_after hs ht with
    | scalar => exact h.beginEntry.endNode
    | key _ _ hstack =>
      rw [hstack] at h
      exact h.congr_head rfl rfl
    | opens _ hp =>
      -- the place was computed before the collection around began the entry
      rw [← State.beginEntry_place?] at hp
      exact (placed_cons _).mpr ⟨hp, h.beginEntry⟩
    | closes _ hstack =>
      rw [hstack] at h
      exact h.tail.endNode
  · obtain ⟨as, ha, rfl⟩ := State.after_eq_some ht
    obtain ⟨stage, rfl⟩ := State.actions_outside hs ha
    exact h

theorem failed (ht : Meets o s e .failed t) : Placed o t.stack := by
  rcases State.failed_cases ht with ⟨_, rfl | ⟨_, rfl⟩⟩ | ⟨f, fs, _, hstack, _, _, rfl⟩
  · exact h
  · exact h.beginEntry
  · -- an empty collection comes off the stack before its brackets are written
    rw [hstack] at h
    exact h.tail

theorem meets {fate : Fate} (ht : Meets o s e fate t) : Placed o t.stack := by
  cases fate with
  | taken =>
    cases ht with
    | taken ha => exact h.after (by rw [State.after?, ha])
  | refused =>
    cases ht with
    | refused _ => exact h
  | failed => exact h.failed ht

theorem run {events : History} (hr : Run o s events t) : Placed o t.stack := by
  induction hr with
  | nil s => exact h
  | cons he _ ih => exact ih (h.meets he)

end

theorem bottom (h : Placed o fs) : ∀ f ∈ fs.getLast?, f.column = 0 ∧ f.lead = .lineStart := by
  induction h with
  | nil => exact nofun
  | root hcolumn hlead =>
    intro f hf
    obtain rfl := Option.some.inj hf
    exact ⟨hcolumn, hlead⟩
  | inside _ _ _ ih => rwa [List.getLast?_cons_cons]

theorem inner (h : Placed o fs) : ∀ f ∈ fs.dropLast, f.lead ≠ .lineStart := by
  induction h with
  | nil => exact nofun
  | root => exact nofun
  | inside _ hf _ ih =>
    rw [List.dropLast_cons_cons]
    exact List.forall_mem_cons.mpr ⟨hf.lead_ne, ih⟩

theorem nests (h : Placed o fs) : fs.IsChain (Frame.Inside o) := by
  induction h with
  | nil => exact .nil
  | root => exact .singleton _
  | inside _ hf _ ih => exact .cons_cons hf ih

theorem tail_kind (h : Placed o fs) : ∀ f ∈ fs.tail, f.kind ≠ .mapping false := by
  induction h with
  | nil => exact nofun
  | root => exact nofun
  | inside hkind _ _ ih => exact List.forall_mem_cons.mpr ⟨hkind, ih⟩

theorem columns (h : Placed o fs) (ho : o.columnLimit = none) :
    (fs.map Frame.column).Pairwise (· > ·) := by
  have hchain : (fs.map Frame.column).IsChain (· > ·) :=
    List.isChain_map_of_isChain Frame.column (fun _ _ hf => hf.column_lt ho) h.nests
  exact hchain.pairwise

end Placed

namespace State

/-- What holds of the open collections, innermost first, after any events. Their columns go up along the
nesting unless words are too short for them. -/
structure Nested (o : WriterOptions) (s : State) : Prop where
  /-- Collections are open only within a document whose root is not complete. -/
  stage : s.stack ≠ [] → s.stage = .document false
  bottom : ∀ f ∈ s.stack.getLast?, f.column = 0 ∧ f.lead = .lineStart
  inner : ∀ f ∈ s.stack.dropLast, f.lead ≠ .lineStart
  columns : o.columnLimit = none → (s.stack.map Frame.column).Pairwise (· > ·)
  nests : s.stack.IsChain (Frame.Inside o)
  /-- A collection around another has begun the entry that this one is; in a mapping it is the value of
  the last key. -/
  below : ∀ f ∈ s.stack.tail, 1 ≤ f.length ∧ f.kind ≠ .mapping false
  awaiting : ∀ f ∈ s.stack, f.kind = .mapping true → 1 ≤ f.length

theorem Filled.awaits {s : State} (h : s.Filled) :
    ∀ f ∈ s.stack, f.kind = .mapping true → 1 ≤ f.length := by
  obtain ⟨stage, stack⟩ := s
  obtain ⟨hbelow, hawaiting⟩ := h
  match stack with
  | [] => exact nofun
  | f :: fs => exact List.forall_mem_cons.mpr ⟨hawaiting f rfl, fun g hg _ => hbelow g hg⟩

/-- Whichever writes fail, the open collections nest. -/
theorem nested_of_run {o : WriterOptions} {events : History} {s : State} (hr : Run o .start events s) :
    s.Nested o := by
  have hstands := standsFor_start.run hr
  have hplaced := Placed.nil.run hr
  exact {
    stage := hstands.tidy.resolve_right
    bottom := hplaced.bottom
    inner := hplaced.inner
    columns := hplaced.columns
    nests := hplaced.nests
    below := fun f hf => ⟨hstands.filled.below f hf, hplaced.tail_kind f hf⟩
    awaiting := hstands.filled.awaits }

theorem openCollection_refused {o : WriterOptions} {k : Kind} {s : State} {r : Refusal}
    (h : s.openCollection o k = .error r) : r = .keyNotScalar := by
  unfold openCollection at h
  split at h
  · exact (Except.error.inj h).symm
  · cases h

/-- Within a document, a key is written and a collection is closed only where one is open. -/
theorem refusal_of_node {o : WriterOptions} {s : State} {e : Event} {r : Refusal}
    (h : s.nodeActions o e = .error r) : r ≠ .keyOutsideMapping ∧ r ≠ .noOpenCollection := by
  obtain ⟨stage, stack⟩ := s
  cases e with
  | scalar text p =>
    match stack with
    | [] => cases h
    | ⟨.sequence, _, _, _⟩ :: fs => cases h
    | ⟨.mapping true, _, _, _⟩ :: fs => cases h
    | ⟨.mapping false, _, _, _⟩ :: fs => cases h
  | sequenceStart | mappingStart =>
    obtain rfl := openCollection_refused h
    decide
  | sequenceEnd =>
    match stack with
    | [] => cases h; decide
    | ⟨.sequence, _, _, _⟩ :: fs => cases h
    | ⟨.mapping _, _, _, _⟩ :: fs => cases h; decide
  | mappingEnd =>
    match stack with
    | [] => cases h; decide
    | ⟨.sequence, _, _, _⟩ :: fs => cases h; decide
    | ⟨.mapping true, _, _, _⟩ :: fs => cases h; decide
    | ⟨.mapping false, _, _, _⟩ :: fs => cases h
  | streamStart | streamEnd | documentStart | documentEnd => cases h; decide

theorem refusal_of_actions {o : WriterOptions} {s : State} {e : Event} {r : Refusal}
    (h : s.actions o e = .error r) : r ≠ .keyOutsideMapping ∧ r ≠ .noOpenCollection := by
  obtain ⟨stage, stack⟩ := s
  match stage with
  | .document false =>
    cases e with
    | documentEnd =>
      cases h
      split <;> decide
    | _ =>
      simp only [actions] at h
      exact refusal_of_node h
  | .initial | .stream | .document true | .finished =>
    cases e <;> cases h <;> decide

end State

namespace Session

theorem feed_refusal {o : WriterOptions} {s : Session} {e : Event} {r : Refusal}
    (h : (s.feed o e).2 = some (.refused r)) : s.state.actions o e = .error r := by
  rw [feed_eq] at h
  split at h
  · rename_i ha
    cases h
    exact ha
  · split at h <;> simp at h

/-- After any events, whether taken, refused or cut short by the sink, the open collections nest: they
stand in one another from the root on, and those around others have begun the entry that these are. No
event is then refused for want of a collection to write a key in or to close. -/
theorem open_collections_nest (o : WriterOptions) (sink : Sink) (es : List Event) :
    ((start sink).feedAll o es).state.Nested o ∧
      ∀ e r, (((start sink).feedAll o es).feed o e).2 = some (.refused r) →
        r ≠ .keyOutsideMapping ∧ r ≠ .noOpenCollection :=
  ⟨State.nested_of_run (history_run o (start sink) es),
    fun _ _ h => State.refusal_of_actions (feed_refusal h)⟩

example : ((start .unlimited).feedAll { indentStep := 4 }
      [.streamStart, .documentStart, .sequenceStart, .mappingStart, .scalar "k" .any,
        .sequenceStart]).state.stack =
    [⟨.sequence, 6, .newline, 0⟩, ⟨.mapping true, 2, .inline, 1⟩, ⟨.sequence, 0, .lineStart, 1⟩] := by
  decide

end Session
end YamlCodec.Writer
