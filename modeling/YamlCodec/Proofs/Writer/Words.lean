import YamlCodec.Proofs.Writer.Transition

/-!
# Columns in machine words

A word may be too short for the column of a collection that starts; nothing else is computed from columns.
As long as words hold the columns of a run, it is the run with columns that have no bound.
-/

set_option autoImplicit false

namespace YamlCodec

namespace WriterOptions

/-- The same options with columns that have no bound. -/
def unbounded (o : WriterOptions) : WriterOptions := { o with columnLimit := none }

/-- Words hold a column. -/
def Holds (o : WriterOptions) (c : Nat) : Prop := ∀ limit ∈ o.columnLimit, c < limit

instance (o : WriterOptions) : DecidablePred o.Holds := fun c =>
  inferInstanceAs (Decidable (∀ limit ∈ o.columnLimit, c < limit))

variable {o : WriterOptions} {c d : Nat}

theorem Holds.column (h : o.Holds c) : o.column c = c := by
  unfold WriterOptions.column
  split
  · rfl
  · rename_i limit heq
    exact Nat.mod_eq_of_lt (h limit heq)

theorem Holds.of_le (h : o.Holds d) (hle : c ≤ d) : o.Holds c :=
  fun limit hlimit => Nat.lt_of_le_of_lt hle (h limit hlimit)

@[simp] theorem unbounded_column (o : WriterOptions) (c : Nat) : o.unbounded.column c = c := rfl

@[simp] theorem unbounded_indentStep (o : WriterOptions) :
    o.unbounded.indentStep = o.indentStep := rfl

@[simp] theorem unbounded_emptyAsBraces (o : WriterOptions) :
    o.unbounded.emptyAsBraces = o.emptyAsBraces := rfl

@[simp] theorem unbounded_maxDepth (o : WriterOptions) : o.unbounded.maxDepth = o.maxDepth := rfl

theorem column_le (o : WriterOptions) (c : Nat) : o.column c ≤ c := by
  unfold column
  split
  · exact Nat.le_refl c
  · exact Nat.mod_le c _

end WriterOptions

namespace Writer

namespace State
variable {o : WriterOptions} {s t : State} {e : Event}

/-- The column that is computed for a collection that an event starts. -/
def opened? (o : WriterOptions) (s : State) (e : Event) : Option Nat :=
  match s.stage, started? e with
  | .document false, some _ => (s.place? o).map Prod.fst
  | _, _ => none

theorem place?_unbounded (h : ∀ place ∈ s.place? o.unbounded, o.Holds place.1) :
    s.place? o = s.place? o.unbounded := by
  unfold place? at h ⊢
  cases hslot : s.slot with
  | root | key => rfl
  | item dash =>
    rw [hslot] at h
    have hcolumn : o.Holds (dash + 2) := h _ rfl
    exact congrArg (fun c => some (c, Lead.inline)) hcolumn.column
  | value key =>
    rw [hslot] at h
    have hcolumn : o.Holds (key + max 1 o.indentStep) := h _ rfl
    exact congrArg (fun c => some (c, Lead.newline)) hcolumn.column

/-- Only the start of a collection depends on a column, which is that of the collection. -/
theorem actions_unbounded (h : ∀ c ∈ s.opened? o.unbounded e, o.Holds c) :
    s.actions o e = s.actions o.unbounded e := by
  obtain ⟨stage, stack⟩ := s
  match stage with
  | .initial | .stream | .document true | .finished => cases e <;> rfl
  | .document false =>
    have hstart {k : Kind} (he : started? e = some k) :
        openCollection o k ⟨.document false, stack⟩ =
          openCollection o.unbounded k ⟨.document false, stack⟩ := by
      have hplace : ∀ place ∈ place? o.unbounded ⟨.document false, stack⟩, o.Holds place.1 :=
        fun place hp => h _ (by rw [opened?, he]; exact Option.mem_map_of_mem Prod.fst hp)
      rw [openCollection, openCollection, place?_unbounded hplace]
    cases e with
    | sequenceStart => exact hstart rfl
    | mappingStart => exact hstart rfl
    | scalar | sequenceEnd | mappingEnd | streamStart | streamEnd | documentStart | documentEnd => rfl

theorem after?_unbounded (h : ∀ c ∈ s.opened? o.unbounded e, o.Holds c) :
    s.after? o e = s.after? o.unbounded e := by
  rw [after?, after?, actions_unbounded h]

theorem output_unbounded (h : ∀ c ∈ s.opened? o.unbounded e, o.Holds c) :
    s.output o e = s.output o.unbounded e := by
  rw [output, output, actions_unbounded h]

end State

namespace Session
variable {o : WriterOptions}

/-- The columns that are computed for collections along events, up to the first failure. -/
def columns (o : WriterOptions) (s : Session) : List Event → List Nat
  | [] => []
  | e :: es =>
    (s.state.opened? o e).toList ++
      match s.feed o e with
      | (t, none) => columns o t es
      | (_, some _) => []

theorem feed_unbounded {s : Session} {e : Event}
    (h : ∀ c ∈ s.state.opened? o.unbounded e, o.Holds c) : s.feed o e = s.feed o.unbounded e := by
  rw [feed_eq, feed_eq, State.actions_unbounded h]

/-- As long as words hold the columns, events do in words what they do without a bound. -/
theorem feedEach_unbounded {s : Session} {es : List Event}
    (h : ∀ c ∈ s.columns o.unbounded es, o.Holds c) : s.feedEach o es = s.feedEach o.unbounded es := by
  induction es generalizing s with
  | nil => rfl
  | cons e es ih =>
    rw [columns, List.forall_mem_append] at h
    obtain ⟨hfirst, hrest⟩ := h
    rw [feedEach, feedEach, feed_unbounded fun c hc => hfirst c (Option.mem_toList.mpr hc)]
    split
    · rename_i t hfeed
      rw [hfeed] at hrest
      exact ih hrest
    · rfl

end Session

end Writer
end YamlCodec
