import YamlCodec.Proofs.Token.Node
import YamlCodec.Proofs.Writer.Failure
import YamlCodec.Proofs.Writer.Room

/-!
# Columns and what has been written

The column of a collection is computed when it starts, before anything is written for it. An entry has been
written behind the indentation of its collection, so the columns of open collections are below the number
of characters written, but for a collection without entries: one behind a dash is ahead of it by one
column, and one behind a key by the step. So no column is computed that is ahead by more than the step, or
by more than three.
-/

set_option autoImplicit false

namespace YamlCodec.Writer

namespace State

theorem opened?_start {o : WriterOptions} {s : State} (hs : s.stage = .document false) {e : Event} {k : Kind}
    (he : started? e = some k) {c : Nat} {l : Lead} (hp : s.place? o = some (c, l)) :
    s.opened? o e = some c := by
  rw [opened?, hs, he, hp]
  rfl

theorem opened?_end (o : WriterOptions) (s : State) {e : Event} {k : Kind} (he : ended? e = some k) :
    s.opened? o e = none := by
  have hnone : started? e = none := by
    cases e <;> first | rfl | cases he
  unfold opened?
  split
  · rename_i hstarted
    cases hnone.symm.trans hstarted
  · rfl

theorem opened?_eq_some {o : WriterOptions} {s : State} {e : Event} {c : Nat}
    (h : s.opened? o e = some c) :
    s.stage = .document false ∧ ∃ l, s.place? o = some (c, l) := by
  unfold opened? at h
  split at h
  · rename_i hs he
    obtain ⟨⟨c', l⟩, hp, rfl⟩ := Option.map_eq_some_iff.mp h
    exact ⟨hs, l, hp⟩
  · cases h

end State

/-- How far ahead of what has been written the column of a collection without entries may be. -/
def Lead.ahead (step : Nat) : Lead → Nat
  | .lineStart => 0
  | .inline => 1
  | .newline => step - 2

/-- The characters of an entry behind its indentation, as far as every entry has them: a dash, or a key of
at least one character and its colon. -/
def Kind.least : Kind → Nat
  | .sequence => 1
  | .mapping _ => 2

/-- What the first characters cover of an open collection: its entries, and what stands before its first
one. -/
structure Frame.Covered (step count : Nat) (f : Frame) : Prop where
  entered : f.length ≠ 0 → f.column + f.kind.least ≤ count
  ahead : f.length = 0 → f.column ≤ count + f.lead.ahead step
  keyed : f.kind = .mapping true → f.length ≠ 0

namespace Frame.Covered
variable {step count more : Nat} {f : Frame}

theorem mono (h : f.Covered step count) (hle : count ≤ more) : f.Covered step more := by
  obtain ⟨hentered, hahead, hkeyed⟩ := h
  refine ⟨fun hne => Nat.le_trans (hentered hne) hle, fun h0 => ?_, hkeyed⟩
  have := hahead h0
  omega

/-- Behind what stands before its next entry, a collection is at its column. -/
theorem column_le (h : f.Covered step count) : f.column ≤ count + (written (entryStart f)).length := by
  obtain ⟨kind, column, lead, length⟩ := f
  by_cases h0 : length = 0
  · have hahead := h.ahead h0
    cases lead <;> simp [entryStart, h0, written, Chunk.toList, space, newline, Lead.ahead] at hahead ⊢ <;>
      omega
  · simp [entryStart, h0, written, Chunk.toList]

end Frame.Covered

namespace State

/-- The first characters cover all open collections. -/
def Covered (step count : Nat) (s : State) : Prop := ∀ f ∈ s.stack, f.Covered step count

section
variable {step count : Nat} {s : State} (h : s.Covered step count)
include h

theorem Covered.mono {more : Nat} (hle : count ≤ more) : s.Covered step more :=
  fun f hf => (h f hf).mono hle

/-- The dash of an item is written at the column of its sequence. -/
theorem Covered.beginEntry : s.beginEntry.2.Covered step (count + (written s.beginEntry.1).length) := by
  obtain ⟨stage, stack⟩ := s
  match stack with
  | [] => exact nofun
  | ⟨.mapping _, _, _, _⟩ :: fs => exact h.mono (Nat.le_add_right _ _)
  | ⟨.sequence, column, lead, length⟩ :: fs =>
    have htop := (h _ List.mem_cons_self).column_le
    simp only [State.beginEntry, written_append, List.length_append]
    refine List.forall_mem_cons.mpr ⟨⟨fun _ => ?_, nofun, nofun⟩, fun f hf => ?_⟩
    · simp only [Kind.least, written, Chunk.toList, List.length_append, List.length_cons] at htop ⊢
      omega
    · exact (h f (List.mem_cons_of_mem _ hf)).mono (Nat.le_add_right _ _)

end

section
variable {o : WriterOptions} {count : Nat} {s : State} (h : s.Covered (max 1 o.indentStep) count)
include h

/-- No column is computed that is further ahead of the characters written than the step, or than three. -/
theorem Covered.place_le {c : Nat} {l : Lead} (hp : s.place? o = some (c, l)) :
    c ≤ count + max 3 (max 1 o.indentStep) := by
  obtain ⟨stage, stack⟩ := s
  match stack with
  | [] =>
    obtain ⟨rfl, -⟩ : 0 = c ∧ .lineStart = l := by simpa [place?, slot] using hp
    exact Nat.zero_le _
  | ⟨.sequence, column, lead, length⟩ :: fs =>
    obtain ⟨rfl, -⟩ : o.column (column + 2) = c ∧ .inline = l := by simpa [place?, slot] using hp
    have hword := o.column_le (column + 2)
    have htop := h _ List.mem_cons_self
    by_cases h0 : length = 0
    · have hahead := htop.ahead h0
      cases lead <;> simp only [Lead.ahead] at hahead <;> omega
    · have hentered := htop.entered h0
      simp only [Kind.least] at hentered
      omega
  | ⟨.mapping true, column, lead, length⟩ :: fs =>
    obtain ⟨rfl, -⟩ : o.column (column + max 1 o.indentStep) = c ∧ .newline = l := by
      simpa [place?, slot] using hp
    have hword := o.column_le (column + max 1 o.indentStep)
    have htop := h _ List.mem_cons_self
    have hentered := htop.entered (htop.keyed rfl)
    simp only [Kind.least] at hentered
    omega
  | ⟨.mapping false, _, _, _⟩ :: fs => cases hp

/-- A collection that has begun is as far ahead as its lead allows. -/
theorem Covered.placed {c : Nat} {l : Lead} (hp : s.place? o = some (c, l)) :
    c ≤ count + (written s.beginEntry.1).length + l.ahead (max 1 o.indentStep) := by
  have hbegun := h.beginEntry
  obtain ⟨stage, stack⟩ := s
  match stack with
  | [] =>
    obtain ⟨rfl, -⟩ : 0 = c ∧ .lineStart = l := by simpa [place?, slot] using hp
    exact Nat.zero_le _
  | ⟨.sequence, column, lead, length⟩ :: fs =>
    obtain ⟨rfl, rfl⟩ : o.column (column + 2) = c ∧ .inline = l := by simpa [place?, slot] using hp
    have hword := o.column_le (column + 2)
    have hentered := (hbegun _ List.mem_cons_self).entered (Nat.succ_ne_zero _)
    simp only [Kind.least, Lead.ahead] at hentered ⊢
    omega
  | ⟨.mapping true, column, lead, length⟩ :: fs =>
    obtain ⟨rfl, rfl⟩ : o.column (column + max 1 o.indentStep) = c ∧ .newline = l := by
      simpa [place?, slot] using hp
    have hword := o.column_le (column + max 1 o.indentStep)
    have htop := h _ List.mem_cons_self
    have hentered := htop.entered (htop.keyed rfl)
    simp only [Kind.least, Lead.ahead] at hentered ⊢
    omega
  | ⟨.mapping false, _, _, _⟩ :: fs => cases hp

end

theorem Covered.endNode {step count : Nat} {s : State} (h : s.Covered step count) :
    s.endNode.Covered step count := by
  obtain ⟨stage, stack⟩ := s
  match stack with
  | [] => exact nofun
  | ⟨.sequence, _, _, _⟩ :: fs => exact h
  | ⟨.mapping _, _, _, _⟩ :: fs =>
    have htop := h _ List.mem_cons_self
    refine List.forall_mem_cons.mpr ⟨⟨htop.entered, htop.ahead, nofun⟩, fun f hf => ?_⟩
    exact h f (List.mem_cons_of_mem _ hf)

theorem keyText_length (column : Nat) (k : Key) : 2 ≤ (keyText column k).length := by
  have hpos := List.length_pos_iff.mpr (Token.render_ne_nil k.1 k.2)
  simp only [keyText]
  split
  · simp
  · rw [List.length_append, List.length_singleton]
    omega

/-- What an event writes covers the collections that are open after it. -/
theorem Covered.after {o : WriterOptions} {count : Nat} {s t : State} {e : Event}
    (h : s.Covered (max 1 o.indentStep) count) (ht : s.after? o e = some t) :
    t.Covered (max 1 o.indentStep) (count + (s.output o e).length) := by
  by_cases hs : s.stage = .document false
  · cases moves_of_after hs ht with
    | scalar text p hk =>
      rw [output_scalar o hs hk, List.length_append]
      exact (h.beginEntry.mono (by omega)).endNode
    | @key text p c l n fs hstack =>
      obtain ⟨stage, stack⟩ := s
      obtain rfl : stage = .document false := hs
      obtain rfl : stack = ⟨.mapping false, c, l, n⟩ :: fs := hstack
      have htop := (h _ List.mem_cons_self).column_le
      have hkey := keyText_length c (text, p)
      rw [output_key o c l n fs (text, p), List.length_append]
      refine List.forall_mem_cons.mpr ⟨⟨fun _ => ?_, nofun, fun _ => Nat.succ_ne_zero n⟩, fun f hf => ?_⟩
      · simp only [Kind.least] at htop ⊢
        omega
      · exact (h f (List.mem_cons_of_mem _ hf)).mono (Nat.le_add_right _ _)
    | @opens _ k c l he hp =>
      have hkind : k ≠ .mapping true := by
        rintro rfl
        cases e <;> simp [started?] at he
      rw [output_start o hs he (takesNode_of_place hp)]
      exact List.forall_mem_cons.mpr ⟨⟨fun hne => absurd rfl hne, fun _ => h.placed hp,
        fun hk => absurd hk hkind⟩, h.beginEntry⟩
    | closes _ hstack =>
      have hrest : Covered (max 1 o.indentStep) count { s with stack := _ } :=
        fun f hf => h f (hstack ▸ List.mem_cons_of_mem _ hf)
      exact (hrest.mono (Nat.le_add_right _ _)).endNode
  · obtain ⟨as, ha, rfl⟩ := after_eq_some ht
    obtain ⟨stage, rfl⟩ := actions_outside hs ha
    exact h.mono (Nat.le_add_right _ _)

end State

namespace Session
open State

section
variable {o : WriterOptions} {s t : State} {e : Event} (h : s.after? o e = some t)
include h

/-- An event whose output fits is taken. -/
theorem feed_fits {n : Nat} (hfits : (s.output o e).length ≤ n) (w : String) :
    feed o ⟨s, ⟨w, some n⟩⟩ e = (⟨t, Sink.offered w n (s.output o e)⟩, none) := by
  obtain ⟨as, ha, rfl⟩ := after_eq_some h
  have houtput : s.output o e = written as := by rw [output, ha]
  rw [houtput] at hfits ⊢
  rw [feed_eq, ha]
  simp only [perform_fits hfits]

theorem feed_past {n : Nat} (hpast : n < (s.output o e).length) (w : String) :
    ∃ u, feed o ⟨s, ⟨w, some n⟩⟩ e = (u, some .sinkFull) := by
  obtain ⟨as, ha, rfl⟩ := after_eq_some h
  have houtput : s.output o e = written as := by rw [output, ha]
  rw [houtput] at hpast
  obtain ⟨u, hu⟩ := perform_past hpast s w
  refine ⟨⟨u, Sink.offered w n (written as)⟩, ?_⟩
  rw [feed_eq, ha]
  simp only [hu]

/-- An event that is not refused leads to the state after it, unless it fails in a sink with limited
room. -/
theorem feed_goes (sink : Sink) :
    (∃ sink', sink'.room.isSome = sink.room.isSome ∧ feed o ⟨s, sink⟩ e = (⟨t, sink'⟩, none)) ∨
    (sink.room.isSome = true ∧ ∃ u, feed o ⟨s, sink⟩ e = (u, some .sinkFull)) := by
  obtain ⟨w, room⟩ := sink
  cases room with
  | none => exact .inl ⟨⟨w ++ String.ofList (s.output o e), none⟩, rfl, feed_taken w h⟩
  | some n =>
    by_cases hfits : (s.output o e).length ≤ n
    · exact .inl ⟨Sink.offered w n _, rfl, feed_fits h hfits w⟩
    · exact .inr ⟨rfl, feed_past h (Nat.lt_of_not_le hfits) w⟩

end

section
variable {o : WriterOptions} {s t : Session} {e : Event} (h : s.feed o e = (t, none))
include h

/-- An event that does not fail leads to the state after it. -/
theorem feed_after : s.state.after? o e = some t.state := by
  rw [feed_eq] at h
  unfold after?
  cases ha : s.state.actions o e with
  | error r => simp [ha] at h
  | ok as =>
    rcases hp : s.perform as with ⟨u, taken⟩
    simp only [ha, hp] at h
    cases taken with
    | false => simp at h
    | true =>
      obtain rfl : u = t := by simpa using h
      exact congrArg some (perform_settled hp).symm

/-- An event that does not fail in a sink with limited room takes as much of it as it writes. -/
theorem feed_room {n : Nat} (hroom : s.sink.room = some n) :
    (s.state.output o e).length ≤ n ∧ t.sink.room = some (n - (s.state.output o e).length) := by
  have hafter := feed_after h
  obtain ⟨state, written, room⟩ := s
  subst hroom
  by_cases hfits : (state.output o e).length ≤ n
  · rw [feed_fits hafter hfits] at h
    rw [← (Prod.mk.inj h).1]
    exact ⟨hfits, rfl⟩
  · obtain ⟨u, hu⟩ := feed_past hafter (Nat.lt_of_not_le hfits) written
    rw [hu] at h
    cases h

end

end Session
end YamlCodec.Writer
