import YamlCodec.Proofs.Writer.Acceptance
import YamlCodec.Proofs.Writer.History

/-!
# Events that are not written in full

Any write may fail, and then the state is the one settled last before it. Only the end of an empty
collection settles something first: it takes the collection off the stack. So a collection whose end
fails is dropped, as though its start had not been told, while any other event that fails is as though
it had not come.
-/

set_option autoImplicit false

namespace YamlCodec.Writer

/-- The states in which a write among actions may fail. -/
def FailsIn (s : State) : List Action → State → Prop
  | [], _ => False
  | .settle t :: rest, u => FailsIn t rest u
  | .write _ :: rest, u => u = s ∨ FailsIn s rest u

theorem failsIn_append (s : State) (as bs : List Action) (u : State) :
    FailsIn s (as ++ bs) u ↔ FailsIn s as u ∨ FailsIn (settled s as) bs u := by
  induction as generalizing s with
  | nil => simp [FailsIn, settled]
  | cons a as ih =>
    cases a with
    | write c => simp [FailsIn, settled, ih, or_assoc]
    | settle t => exact ih t

theorem failsIn_of_writeOnly {s u : State} {as : List Action} (hw : WriteOnly as)
    (h : FailsIn s as u) : u = s := by
  induction as with
  | nil => exact h.elim
  | cons a as ih =>
    cases a with
    | write c => exact h.elim id (ih fun t ht => hw t (List.mem_cons_of_mem _ ht))
    | settle t => exact absurd List.mem_cons_self (hw t)

/-- What may become of an event in a state, whichever writes fail, and the state it leaves. -/
inductive Meets (o : WriterOptions) (s : State) (e : Event) : Fate → State → Prop where
  | taken {as : List Action} (h : s.actions o e = .ok as) : Meets o s e .taken (settled s as)
  | refused {r : Refusal} (h : s.actions o e = .error r) : Meets o s e .refused s
  | failed {as : List Action} {t : State} (h : s.actions o e = .ok as) (hf : FailsIn s as t) :
      Meets o s e .failed t

/-- A run that goes on after errors, whichever writes fail. -/
inductive Run (o : WriterOptions) : State → History → State → Prop where
  | nil (s : State) : Run o s [] s
  | cons {s t u : State} {e : Event} {f : Fate} {h : History} (he : Meets o s e f t)
      (hr : Run o t h u) : Run o s ((e, f) :: h) u

namespace History

/-- The events that stand after one more: an end that failed takes the event before it away. -/
def stand (es : List Event) (r : Event × Fate) : List Event :=
  match r.2 with
  | .taken => es ++ [r.1]
  | .refused => es
  | .failed => if (ended? r.1).isSome then es.dropLast else es

/-- The events that were taken, but for those that an end which failed took away. -/
def standing (h : History) : List Event := h.foldl stand []

theorem standing_append (h : History) (r : Event × Fate) :
    standing (h ++ [r]) = stand h.standing r := by
  rw [standing, List.foldl_append]
  rfl

theorem foldl_stand_sublist (h : History) (es : List Event) :
    (h.foldl stand es).Sublist (es ++ h.taken) := by
  induction h generalizing es with
  | nil => simp
  | cons r h ih =>
    obtain ⟨e, f⟩ := r
    rw [List.foldl_cons, taken_cons]
    cases f with
    | taken => simpa [stand] using ih (es ++ [e])
    | refused => exact ih es
    | failed =>
      by_cases he : (ended? e).isSome
      · have hdrop := es.dropLast_sublist.append_right (taken h)
        simpa [stand, he] using (ih es.dropLast).trans hdrop
      · simpa [stand, he] using ih es

theorem foldl_stand_of_whole {h : History} (hw : ∀ e, (e, .failed) ∈ h → ended? e = none)
    (es : List Event) : h.foldl stand es = es ++ h.taken := by
  induction h generalizing es with
  | nil => simp
  | cons r h ih =>
    obtain ⟨e, f⟩ := r
    have hrest := ih fun e he => hw e (List.mem_cons_of_mem _ he)
    rw [List.foldl_cons, taken_cons, hrest]
    cases f with
    | taken => simp [stand]
    | refused => rfl
    | failed => simp [stand, hw e List.mem_cons_self]

end History

namespace Session

/-- A sink that gives out is one way for writes to fail. -/
theorem perform_failed {s : State} {sink : Sink} {t : Session} {as : List Action}
    (h : perform ⟨s, sink⟩ as = (t, false)) : FailsIn s as t.state := by
  induction as generalizing s sink with
  | nil => simp [perform] at h
  | cons a as ih =>
    cases a with
    | settle u => exact ih h
    | write c =>
      rw [perform] at h
      split at h
      · exact .inr (ih h)
      · obtain rfl := (Prod.mk.inj h).1
        exact .inl rfl

theorem feed_meets (o : WriterOptions) (s : Session) (e : Event) :
    Meets o s.state e (Fate.ofError (s.feed o e).2) (s.feed o e).1.state := by
  rw [feed_eq]
  cases ha : s.state.actions o e with
  | error r => exact .refused ha
  | ok as =>
    rcases hp : s.perform as with ⟨t, taken⟩
    cases taken with
    | true =>
      simp only [hp, perform_settled hp]
      exact .taken ha
    | false =>
      simp only [hp]
      exact .failed ha (perform_failed hp)

theorem history_run (o : WriterOptions) (s : Session) (es : List Event) :
    Run o s.state (s.history o es) (s.feedAll o es).state := by
  induction es generalizing s with
  | nil => exact .nil _
  | cons e es ih => exact .cons (feed_meets o s e) (ih _)

end Session

namespace State

/-- What may come does not depend on where entries stand. -/
theorem remains_congr {s t : State} (hstage : s.stage = t.stage) (hkinds : s.kinds = t.kinds)
    (es : List Event) : s.Remains es ↔ t.Remains es := by
  rw [Remains, Remains, hstage, hkinds]

theorem failsIn_beginEntry {s u : State} (h : FailsIn s s.beginEntry.1 u) : u = s := by
  obtain ⟨stage, stack⟩ := s
  match stack with
  | [] => exact h.elim
  | ⟨.mapping _, _, _, _⟩ :: fs => exact h.elim
  | ⟨.sequence, column, lead, length⟩ :: fs =>
    have hstart := writeOnly_entryStart ⟨.sequence, column, lead, length⟩
    rcases (failsIn_append _ _ _ _).mp h with h | h
    · exact failsIn_of_writeOnly hstart h
    · rw [hstart.settled] at h
      exact h.elim id False.elim

theorem failsIn_writeKey {s u : State} {key : List Char} {as : List Action}
    (ha : s.writeKey key = .ok as) (h : FailsIn s as u) : u = s := by
  unfold writeKey at ha
  split at ha
  · simp at ha
  · rename_i f fs _
    obtain rfl := Except.ok.inj ha
    have hstart := writeOnly_entryStart f
    have hkey := writeOnly_keyActions f.column key
    rw [failsIn_append, failsIn_append, hstart.settled, hkey.settled] at h
    rcases h with h | h | h
    · exact failsIn_of_writeOnly hstart h
    · exact failsIn_of_writeOnly hkey h
    · exact h.elim id False.elim

theorem failsIn_writeScalar {s u : State} {text : List Char}
    (h : FailsIn s (s.writeScalar text) u) : u = s ∨ u = s.beginEntry.2 := by
  rw [writeScalar, failsIn_append, settled_beginEntry] at h
  rcases h with h | h
  · exact .inl (failsIn_beginEntry h)
  · right
    by_cases hroot : s.slot = .root <;> simpa [hroot, FailsIn, space, newline] using h

theorem failsIn_openCollection {o : WriterOptions} {s u : State} {k : Kind} {as : List Action}
    (ha : s.openCollection o k = .ok as) (h : FailsIn s as u) : u = s := by
  unfold openCollection at ha
  split at ha
  · simp at ha
  · obtain rfl := Except.ok.inj ha
    rw [failsIn_append] at h
    rcases h with h | h
    · exact failsIn_beginEntry h
    · exact h.elim

theorem failsIn_closeCollection {o : WriterOptions} {u : State} {brackets : List Char} {stage : Stage}
    {f : Frame} {fs : List Frame} {as : List Action}
    (ha : closeCollection o brackets ⟨stage, f :: fs⟩ = .ok as)
    (h : FailsIn ⟨stage, f :: fs⟩ as u) : u = ⟨stage, fs⟩ ∧ f.length = 0 := by
  obtain rfl := Except.ok.inj ha
  have hempty := writeOnly_emptyActions o f.lead brackets
  rcases (failsIn_append _ _ _ _).mp h with h | h
  · by_cases hf : f.length = 0
    · rw [if_pos hf] at h
      exact ⟨failsIn_of_writeOnly hempty h, hf⟩
    · rw [if_neg hf] at h
      exact h.elim
  · exact h.elim

/-- Collections below the top have an entry, and so has one whose key awaits its value. -/
structure Filled (s : State) : Prop where
  below : ∀ f ∈ s.stack.tail, 1 ≤ f.length
  awaiting : ∀ f ∈ s.stack.head?, f.kind = .mapping true → 1 ≤ f.length

/-- Where an entry begins, every collection has one. -/
theorem Filled.beginEntry {s : State} (h : s.Filled) (hk : TakesNode s.kinds) :
    ∀ f ∈ s.beginEntry.2.stack, 1 ≤ f.length := by
  obtain ⟨stage, stack⟩ := s
  obtain ⟨hbelow, hawaiting⟩ := h
  match stack with
  | [] => exact fun f hf => absurd hf List.not_mem_nil
  | ⟨.sequence, _, _, n⟩ :: fs => exact List.forall_mem_cons.mpr ⟨Nat.le_add_left 1 n, hbelow⟩
  | ⟨.mapping true, c, l, n⟩ :: fs =>
    exact List.forall_mem_cons.mpr ⟨hawaiting _ rfl rfl, hbelow⟩
  | ⟨.mapping false, _, _, _⟩ :: fs => exact hk.elim

theorem endNode_filled {s : State} (h : ∀ f ∈ s.stack, 1 ≤ f.length) :
    ∀ f ∈ s.endNode.stack, 1 ≤ f.length := by
  obtain ⟨stage, stack⟩ := s
  match stack with
  | [] => exact h
  | ⟨.sequence, _, _, _⟩ :: fs => exact h
  | ⟨.mapping _, _, _, _⟩ :: fs =>
    obtain ⟨hf, hfs⟩ := List.forall_mem_cons.mp h
    exact List.forall_mem_cons.mpr ⟨hf, hfs⟩

theorem filled_of_all {s : State} (h : ∀ f ∈ s.stack, 1 ≤ f.length) : s.Filled where
  below := fun f hf => h f (List.mem_of_mem_tail hf)
  awaiting := fun f hf _ => h f (List.mem_of_mem_head? hf)

/-- The events that stand lead to a state: what may follow them is what may come in it, and if the
collection on top is empty its start is the last of them. -/
structure StandsFor (es : List Event) (s : State) : Prop where
  tidy : s.Tidy
  filled : s.Filled
  remains : ∀ rest, IsSentence (es ++ rest) ↔ s.Remains rest
  opened : ∀ f fs, s.stack = f :: fs → f.length = 0 → ∃ before e, es = before ++ [e] ∧
    started? e = some f.kind ∧ ∀ rest, IsSentence (before ++ rest) ↔ Remains ⟨s.stage, fs⟩ rest

theorem standsFor_start : StandsFor [] .start where
  tidy := .inr rfl
  filled := filled_of_all fun _ hf => absurd hf List.not_mem_nil
  remains := fun _ => Iff.rfl
  opened := fun f fs h => absurd h (List.cons_ne_nil f fs).symm

/-- Where every open collection has an entry, nothing is to be said of an empty one. -/
theorem standsFor_of_all {es : List Event} {s : State} (ht : s.Tidy)
    (h : ∀ f ∈ s.stack, 1 ≤ f.length) (hr : ∀ rest, IsSentence (es ++ rest) ↔ s.Remains rest) :
    StandsFor es s where
  tidy := ht
  filled := filled_of_all h
  remains := hr
  opened := by
    intro f fs hs hf
    have := h f (hs ▸ List.mem_cons_self)
    omega

section
variable {o : WriterOptions} {es : List Event} {s t : State} {e : Event}

theorem StandsFor.taken (hs : StandsFor es s) (h : s.after? o e = some t) :
    StandsFor (es ++ [e]) t := by
  have htidy := after_tidy hs.tidy h
  have hrest (rest : List Event) : IsSentence (es ++ [e] ++ rest) ↔ t.Remains rest := by
    rw [List.append_assoc, List.singleton_append, hs.remains, remains_cons o hs.tidy]
    simp [h]
  by_cases hd : s.stage = .document false
  · have hbegin := hs.filled.beginEntry
    cases moves_of_after hd h with
    | scalar text p hk => exact standsFor_of_all htidy (endNode_filled (hbegin hk)) hrest
    | key text p hstack =>
      have hbelow := hs.filled.below
      rw [hstack, List.tail_cons] at hbelow
      exact standsFor_of_all htidy (List.forall_mem_cons.mpr ⟨Nat.le_add_left 1 _, hbelow⟩) hrest
    | @opens _ k c l he hp =>
      refine ⟨htidy, ⟨hbegin (takesNode_of_place hp), ?_⟩, hrest, ?_⟩
      · intro f hf hawaits
        obtain rfl := Option.some.inj hf
        obtain rfl : k = .mapping true := hawaits
        cases e <;> simp [started?] at he
      · -- the collection on top is the one that was opened, and its start the last event
        intro f fs hstack _
        obtain ⟨rfl, rfl⟩ := List.cons.inj hstack
        refine ⟨es, e, rfl, he, fun rest => ?_⟩
        rw [hs.remains]
        exact remains_congr (beginEntry_stage s).symm (beginEntry_kinds s).symm rest
    | closes he hstack =>
      have hbelow := hs.filled.below
      rw [hstack, List.tail_cons] at hbelow
      exact standsFor_of_all htidy (endNode_filled hbelow) hrest
  · have hstack := after_outside hd (hs.tidy.resolve_left hd) h
    refine standsFor_of_all htidy ?_ hrest
    rw [hstack]
    exact fun f hf => absurd hf List.not_mem_nil

/-- Outside a document in progress nothing is written, and so nothing fails. -/
theorem not_failed_outside (hd : s.stage ≠ .document false) : ¬ Meets o s e .failed t := by
  intro h
  cases h with
  | failed ha hf =>
    obtain ⟨stage, rfl⟩ := actions_outside hd ha
    exact hf

/-- What a failed event leaves: the state as it was or with the entry begun, or, if it is an end, the
state without the collection, which is an empty one. -/
theorem failed_cases (h : Meets o s e .failed t) :
    (ended? e = none ∧ (t = s ∨ TakesNode s.kinds ∧ t = s.beginEntry.2)) ∨
      ∃ f fs, s.stage = .document false ∧ s.stack = f :: fs ∧ ended? e = some f.kind ∧
        f.length = 0 ∧ t = { s with stack := fs } := by
  have hd : s.stage = .document false :=
    Classical.byContradiction fun hd => not_failed_outside hd h
  cases h with
  | failed ha hf =>
    have hstart {k : Kind} (he : started? e = some k) : t = s := by
      rw [actions_start o hd he] at ha
      exact failsIn_openCollection ha hf
    have hend {k : Kind} (he : ended? e = some k) :
        ∃ f fs, s.stage = .document false ∧ s.stack = f :: fs ∧ ended? e = some f.kind ∧
          f.length = 0 ∧ t = { s with stack := fs } := by
      obtain ⟨c, l, n, fs, brackets, rfl, hclose⟩ := actions_end hd he ha
      obtain ⟨rfl, hn⟩ := failsIn_closeCollection hclose hf
      exact ⟨⟨k, c, l, n⟩, fs, rfl, rfl, he, hn, rfl⟩
    cases e with
    | scalar text p =>
      by_cases hk : TakesNode s.kinds
      · rw [actions_scalar o hd hk] at ha
        obtain rfl := Except.ok.inj ha
        exact .inl ⟨rfl, (failsIn_writeScalar hf).imp_right fun h => ⟨hk, h⟩⟩
      · obtain ⟨stage, stack⟩ := s
        subst hd
        obtain ⟨c, l, n, fs, rfl⟩ := key_of_not_takesNode hk
        exact .inl ⟨rfl, .inl (failsIn_writeKey ha hf)⟩
    | sequenceStart => exact .inl ⟨rfl, .inl (hstart rfl)⟩
    | mappingStart => exact .inl ⟨rfl, .inl (hstart rfl)⟩
    | sequenceEnd => exact .inr (hend rfl)
    | mappingEnd => exact .inr (hend rfl)
    | _ => simp [actions, hd, nodeActions] at ha

/-- An entry that has begun makes no difference to what may come. -/
theorem StandsFor.beginEntry (hs : StandsFor es s) (hk : TakesNode s.kinds) :
    StandsFor es s.beginEntry.2 := by
  have htidy : s.beginEntry.2.Tidy := by
    rcases hs.tidy with h | h
    · exact .inl (by rw [beginEntry_stage, h])
    · obtain ⟨stage, stack⟩ := s
      subst h
      exact .inr rfl
  refine standsFor_of_all htidy (hs.filled.beginEntry hk) fun rest => ?_
  rw [hs.remains]
  exact remains_congr (beginEntry_stage s).symm (beginEntry_kinds s).symm rest

theorem StandsFor.failed (hs : StandsFor es s) (h : Meets o s e .failed t) :
    StandsFor (History.stand es (e, .failed)) t := by
  rcases failed_cases h with ⟨he, rfl | ⟨hk, rfl⟩⟩ | ⟨f, fs, hd, hstack, he, hf, rfl⟩
  · simpa [History.stand, he] using hs
  · simpa [History.stand, he] using hs.beginEntry hk
  · obtain ⟨before, b, rfl, _, hbefore⟩ := hs.opened f fs hstack hf
    have hbelow := hs.filled.below
    rw [hstack, List.tail_cons] at hbelow
    have hstand : History.stand (before ++ [b]) (e, .failed) = before := by
      simp [History.stand, he]
    rw [hstand]
    exact standsFor_of_all (.inl hd) hbelow hbefore

theorem StandsFor.meets {f : Fate} (hs : StandsFor es s) (h : Meets o s e f t) :
    StandsFor (History.stand es (e, f)) t := by
  cases f with
  | taken =>
    cases h with
    | taken ha => exact hs.taken (by rw [after?, ha])
  | refused =>
    cases h with
    | refused ha => exact hs
  | failed => exact hs.failed h

theorem StandsFor.run {h : History} (hs : StandsFor es s) (hr : Run o s h t) :
    StandsFor (h.foldl History.stand es) t := by
  induction hr generalizing es with
  | nil s => exact hs
  | cons he _ ih => exact ih (hs.meets he)

end

end State

/-- Whichever writes fail, a stream can be ended after events just if those that stand are a sentence.
They are the events that were taken, as long as no end of a collection failed. An end that failed has
taken its collection off the stack all the same, and with it the start, which was the last event to
stand. A sink that gives out is a case of this. -/
theorem finished_iff_standing_sentence (o : WriterOptions) :
    (∀ (h : History) (s : State), Run o .start h s →
      (s.stage = .finished ↔ IsSentence h.standing) ∧
      h.standing.Sublist h.taken ∧
      ((∀ e, (e, .failed) ∈ h → ended? e = none) → h.standing = h.taken) ∧
      ∀ e t k, Meets o s e .failed t → ended? e = some k →
        t.stack = s.stack.tail ∧
        ∃ b, started? b = some k ∧ h.standing = History.standing (h ++ [(e, .failed)]) ++ [b]) ∧
    ∀ (sink : Sink) (es : List Event),
      ((Session.start sink).feedAll o es).finish = none ↔
        IsSentence ((Session.start sink).history o es).standing := by
  have hfinished {h : History} {s : State} (hr : Run o .start h s) :
      s.stage = .finished ↔ IsSentence h.standing := by
    have hstands := State.standsFor_start.run hr
    rw [← State.remains_nil, ← hstands.remains, List.append_nil]
    rfl
  constructor
  · intro h s hr
    refine ⟨hfinished hr, ?_, ?_, ?_⟩
    · exact h.foldl_stand_sublist []
    · intro hw
      exact History.foldl_stand_of_whole hw []
    · intro e t k hm he
      have hstands := State.standsFor_start.run hr
      rcases State.failed_cases hm with ⟨hnone, _⟩ | ⟨f, fs, _, hstack, hend, hf, rfl⟩
      · simp [he] at hnone
      · obtain ⟨before, b, hbefore, hb, _⟩ := hstands.opened f fs hstack hf
        have hstanding : h.standing = before ++ [b] := hbefore
        refine ⟨by rw [hstack]; rfl, b, ?_, ?_⟩
        · rw [hb, ← hend, he]
        · rw [History.standing_append, hstanding]
          simp [History.stand, he]
  · intro sink es
    rw [Session.finish_eq_none]
    exact hfinished (Session.history_run o (.start sink) es)

/-- A list in a list, and room for one character: the end of the inner list fails and closes it. Then the
stream is ended without a failure, though of the events that were taken two are starts and one is an
end. -/
theorem finished_past_failed_end :
    ((Session.start (.limited 1)).feedAll {}
        [.streamStart, .documentStart, .sequenceStart, .sequenceStart, .sequenceEnd, .sequenceEnd,
          .documentEnd, .streamEnd]).finish = none ∧
      (Session.start (.limited 1)).history {}
          [.streamStart, .documentStart, .sequenceStart, .sequenceStart, .sequenceEnd, .sequenceEnd,
            .documentEnd, .streamEnd] =
        [(.streamStart, .taken), (.documentStart, .taken), (.sequenceStart, .taken),
          (.sequenceStart, .taken), (.sequenceEnd, .failed), (.sequenceEnd, .taken),
          (.documentEnd, .taken), (.streamEnd, .taken)] ∧
      ¬ IsSentence [.streamStart, .documentStart, .sequenceStart, .sequenceStart, .sequenceEnd,
        .documentEnd, .streamEnd] := by
  refine ⟨by decide, by decide, ?_⟩
  intro hsentence
  obtain ⟨u, hu, _⟩ :=
    (Session.feedEach_closed_iff {} (s := .start) (.inr rfl) "" _).mpr hsentence
  have hnone : Session.feedEach {} ⟨.start, ⟨"", none⟩⟩ [.streamStart, .documentStart,
    .sequenceStart, .sequenceStart, .sequenceEnd, .documentEnd, .streamEnd] = none := by rfl
  rw [hnone] at hu
  simp at hu

end YamlCodec.Writer
