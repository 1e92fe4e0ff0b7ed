import YamlCodec.Proofs.Writer.Grammar

/-!
# Which events a writer takes

The events that may still come in a state are a language of their own, read off the stage and the
kinds of the open collections. Taking an event is taking its derivative, so that a writer follows the
grammar of sentences from left to right and never takes an event after which no sentence is left.
-/

set_option autoImplicit false

namespace YamlCodec.Writer

namespace State

/-- The events that may still come. -/
def Remains (s : State) (es : List Event) : Prop :=
  match s.stage with
  | .initial => IsSentence es
  | .stream => EndsStream es
  | .document false => InDocument (Completes s.kinds) es
  | .document true => InDocument (Closes []) es
  | .finished => es = []

/-- Collections are open only within a document whose root is not complete. -/
def Tidy (s : State) : Prop := s.stage = .document false ∨ s.stack = []

/-- After a node the collections around it are to be completed. -/
theorem remains_endNode {s : State} (hs : s.stage = .document false) (es : List Event) :
    s.endNode.Remains es ↔ InDocument (Closes s.kinds) es := by
  obtain ⟨stage, stack⟩ := s
  subst hs
  match stack with
  | [] => rfl
  | ⟨.mapping _, _, _, _⟩ :: fs => rfl
  | ⟨.sequence, _, _, _⟩ :: fs => rfl

theorem Moves.fits {o : WriterOptions} {s t : State} {e : Event} (h : Moves o s e t) :
    Fits s.kinds e := by
  cases h with
  | scalar t p hk => trivial
  | key t p hs => trivial
  | opens he hp =>
    have hk := takesNode_of_place hp
    cases e <;> simp [started?] at he <;> exact hk
  | @closes _ f fs he hs =>
    have hkinds : s.kinds = f.kind :: fs.map Frame.kind := by rw [kinds, hs, List.map_cons]
    cases e <;> simp [ended?] at he <;> exact ⟨_, hkinds.trans (by rw [← he])⟩

/-- Within a document an event is taken where it fits, and what may follow it is what may follow in
the state after it. -/
theorem remains_cons_node (o : WriterOptions) {s : State} (hs : s.stage = .document false) (e : Event)
    (es : List Event) :
    s.Remains (e :: es) ↔ ∃ t, s.after? o e = some t ∧ t.Remains es := by
  have hr : s.Remains (e :: es) ↔ InDocument (fun b => Completes s.kinds (e :: b)) es := by
    rw [Remains, hs]
    exact inDocument_cons (not_completes_nil _) e es
  by_cases hf : ¬ Fits s.kinds e
  · constructor
    · rintro h
      obtain ⟨before, after, _, hc, _⟩ := hr.mp h
      exact absurd (fits_of_completes hc) hf
    · rintro ⟨t, ht, _⟩
      exact absurd (moves_of_after hs ht).fits hf
  rw [Classical.not_not] at hf
  have hstart {k : Kind} (hk : TakesNode s.kinds) (he : started? e = some k) :
      InDocument (fun b => Completes s.kinds (e :: b)) es ↔
        ∃ t, s.after? o e = some t ∧ t.Remains es := by
    obtain ⟨r, hp⟩ := Option.isSome_iff_exists.mp ((takesNode_iff s o).mp hk)
    rw [inDocument_congr (completes_start hk he), after_start o hs he, hp]
    have hb := beginEntry_kinds s
    rw [kinds] at hb
    simp [Remains, hs, kinds, hb]
  have hend {k : Kind} (he : ended? e = some k) (hk : ∃ ks, s.kinds = k :: ks) :
      InDocument (fun b => Completes s.kinds (e :: b)) es ↔
        ∃ t, s.after? o e = some t ∧ t.Remains es := by
    obtain ⟨stage, stack⟩ := s
    subst hs
    obtain ⟨ks, hks⟩ := hk
    obtain ⟨⟨k, c, l, n⟩, fs, rfl, rfl, rfl⟩ := List.map_eq_cons_iff.mp hks
    rw [after_end o he]
    simp only [Option.some.injEq, exists_eq_left', remains_endNode (s := ⟨_, fs⟩) rfl]
    exact inDocument_congr (completes_end he _) es
  rw [hr]
  cases e with
  | scalar t p =>
    by_cases hk : TakesNode s.kinds
    · rw [inDocument_congr (completes_scalar hk t p), after_scalar o hs hk]
      have := remains_endNode (s := s.beginEntry.2) (by simpa using hs) es
      simp [this]
    · obtain ⟨stage, stack⟩ := s
      subst hs
      obtain ⟨c, l, n, fs, rfl⟩ := key_of_not_takesNode hk
      rw [after_key]
      simp only [Option.some.injEq, exists_eq_left']
      exact inDocument_congr (completes_key _ t p) es
  | sequenceStart => exact hstart hf rfl
  | mappingStart => exact hstart hf rfl
  | sequenceEnd => exact hend rfl hf
  | mappingEnd => exact hend rfl hf
  | _ => exact hf.elim

theorem remains_cons (o : WriterOptions) {s : State} (hs : s.Tidy) (e : Event) (es : List Event) :
    s.Remains (e :: es) ↔ ∃ t, s.after? o e = some t ∧ t.Remains es := by
  obtain ⟨stage, stack⟩ := s
  match stage with
  | .initial =>
    have : IsSentence (e :: es) ↔ e = .streamStart ∧ EndsStream es := by
      simp [IsSentence, streamEvents, EndsStream]
    rw [Remains, this]
    cases e <;> simp [after?, actions, settled, Remains]
  | .stream =>
    obtain rfl : stack = [] := by simpa [Tidy] using hs
    rw [Remains, endsStream_cons]
    cases e <;> simp [after?, actions, settled, Remains, kinds]
  | .document false => exact remains_cons_node o rfl e es
  | .document true =>
    rw [Remains, inDocument_closed]
    cases e <;> simp [after?, actions, settled, Remains]
  | .finished => cases e <;> simp [after?, actions, Remains]

theorem endNode_tidy {s : State} (hs : s.stage = .document false) : s.endNode.Tidy := by
  obtain ⟨stage, stack⟩ := s
  match stack with
  | [] => exact .inr rfl
  | ⟨.mapping _, _, _, _⟩ :: fs => exact .inl hs
  | ⟨.sequence, _, _, _⟩ :: fs => exact .inl hs

/-- Outside a document in progress no event opens a collection. -/
theorem after_outside {o : WriterOptions} {s t : State} {e : Event} (hd : s.stage ≠ .document false)
    (hs : s.stack = []) (h : s.after? o e = some t) : t.stack = [] := by
  obtain ⟨as, ha, rfl⟩ := after_eq_some h
  obtain ⟨stage, rfl⟩ := actions_outside hd ha
  exact hs

theorem after_tidy {o : WriterOptions} {s t : State} (hs : s.Tidy) {e : Event}
    (h : s.after? o e = some t) : t.Tidy := by
  by_cases hd : s.stage = .document false
  · have hbegin : s.beginEntry.2.stage = .document false := by rw [beginEntry_stage, hd]
    cases moves_of_after hd h with
    | scalar t p hk => exact endNode_tidy hbegin
    | key t p hs => exact .inl hd
    | opens he hp => exact .inl hbegin
    | closes he hs => exact endNode_tidy hd
  · exact .inr (after_outside hd (hs.resolve_left hd) h)

theorem remains_nil (s : State) : s.Remains [] ↔ s.stage = .finished := by
  obtain ⟨stage, stack⟩ := s
  match stage with
  | .initial => simp [Remains, IsSentence, streamEvents]
  | .stream => simp [Remains, EndsStream]
  | .document false => simp [Remains, InDocument]
  | .document true => simp [Remains, InDocument]
  | .finished => simp [Remains]

end State

namespace Session

theorem finish_eq_none (s : Session) : s.finish = none ↔ s.state.stage = .finished := by
  unfold finish
  split <;> simp_all

theorem feedEach_cons (o : WriterOptions) (s : State) (w : String) (e : Event) (es : List Event)
    (u : Session) :
    feedEach o ⟨s, ⟨w, none⟩⟩ (e :: es) = some u ↔
      ∃ t, s.after? o e = some t ∧
        feedEach o ⟨t, ⟨w ++ String.ofList (s.output o e), none⟩⟩ es = some u := by
  cases h : s.after? o e with
  | none => obtain ⟨r, hr⟩ := feed_refused w h; simp [feedEach, hr]
  | some t => simp [feedEach, feed_taken w h]

theorem feedEach_closed_iff (o : WriterOptions) {s : State} (hs : s.Tidy) (w : String)
    (es : List Event) :
    (∃ u, feedEach o ⟨s, ⟨w, none⟩⟩ es = some u ∧ u.finish = none) ↔ s.Remains es := by
  induction es generalizing s w with
  | nil => simp [feedEach, finish_eq_none, State.remains_nil]
  | cons e es ih =>
    rw [State.remains_cons o hs]
    constructor
    · rintro ⟨u, hu, hfin⟩
      obtain ⟨t, ht, hu⟩ := (feedEach_cons o s w e es u).mp hu
      exact ⟨t, ht, (ih (State.after_tidy hs ht) _).mp ⟨u, hu, hfin⟩⟩
    · rintro ⟨t, ht, hr⟩
      obtain ⟨u, hu, hfin⟩ := (ih (State.after_tidy hs ht) _).mpr hr
      exact ⟨u, (feedEach_cons o s w e es u).mpr ⟨t, ht, hu⟩, hfin⟩

end Session
end YamlCodec.Writer
