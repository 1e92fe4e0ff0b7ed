import YamlCodec.Event.Reader
import YamlCodec.Proofs.Decode.Run

/-!
# How a stream opens

Whatever a reader of a text yields, no node comes before the start of the stream and that of a
document.
-/

set_option autoImplicit false

namespace YamlCodec.Event.Reader
open Decode

theorem streamStart_event {r : Reader} {s : Step} (hr : r.phase = .streamStart)
    (h : r.step = .ok s) : s.event = .streamStart ∧ s.reader.phase = .documentStart true := by
  rw [step, hr] at h
  simp only [bind, Except.bind] at h
  split at h
  · simp at h
  · obtain rfl := Except.ok.inj h
    exact ⟨rfl, rfl⟩

/-- The content of a document is to come: a node, or what stands for a missing one. -/
def Awaits (r : Reader) : Prop := r.phase = .documentContent ∨ r.phase = .node

theorem explicitDocument_event {r : Reader} {s : Step} (h : r.explicitDocument = .ok s) :
    s.event = .documentStart ∧ s.reader.Awaits := by
  simp only [explicitDocument, bind, Except.bind] at h
  repeat' split at h
  all_goals first
    | obtain rfl := Except.ok.inj h
      exact ⟨rfl, .inl rfl⟩
    | simp [throw, throwThe, MonadExceptOf.throw] at h

/-- Before a document comes its start, or the stream ends. -/
theorem documentStart_event {r : Reader} {bare : Bool} {s : Step} (h : r.documentStart bare = .ok s) :
    s.event = .documentStart ∧ s.reader.Awaits ∨
      s.event = .streamEnd ∧ s.reader.phase = .finished := by
  simp only [documentStart, bind, Except.bind] at h
  repeat' split at h
  all_goals first
    | exact .inl (explicitDocument_event h)
    | obtain rfl := Except.ok.inj h
      first
        | exact .inl ⟨rfl, .inr rfl⟩
        | exact .inr ⟨rfl, rfl⟩
    | simp at h

theorem node_event {r : Reader} {block indentless : Bool} {s : Step}
    (h : r.node block indentless = .ok s) : (Part.ofEvent? s.event).isSome := by
  simp only [node, bind, Except.bind] at h
  repeat' split at h
  all_goals first
    | obtain rfl := Except.ok.inj h
      rfl
    | simp [throw, throwThe, MonadExceptOf.throw] at h

/-- The event after the start of a document tells a part. -/
theorem content_event {r : Reader} (hr : r.Awaits) {s : Step} (h : r.step = .ok s) :
    (Part.ofEvent? s.event).isSome := by
  rcases hr with hr | hr
  · rw [step, hr] at h
    simp only [documentContent, bind, Except.bind] at h
    repeat' split at h
    all_goals first
      | exact node_event h
      | obtain rfl := Except.ok.inj h
        rfl
      | simp at h
  · rw [step, hr] at h
    exact node_event h

/-- The first event that a reader yields is that of its step. -/
theorem step_of_yields {r : Reader} {fuel : Nat} {e : Event} {es : List Event}
    (h : (e :: es).map some <+: (items fuel r).map Item.event?) :
    ∃ s fuel', r.step = .ok s ∧ s.event = e ∧ r.phase ≠ .finished ∧
      es.map some <+: (items fuel' s.reader).map Item.event? := by
  cases fuel with
  | zero => simp [items] at h
  | succ fuel =>
    rw [items] at h
    split at h
    · simp at h
    · rename_i hphase
      split at h
      · simp [Item.event?] at h
      · rename_i s hs
        obtain ⟨he, hes⟩ := List.cons_prefix_cons.mp h
        exact ⟨s, fuel, hs, (Option.some.inj he).symm, hphase, hes⟩

/-- Events that tell a part come after the starts of the stream and of a document. -/
theorem opened_of_yields {ts : Token.Stream} {fuel : Nat} {es : List Event}
    (h : es.map some <+: (items fuel (start ts)).map Item.event?)
    (hne : es.filterMap Part.ofEvent? ≠ []) :
    ∃ rest, es = .streamStart :: .documentStart :: rest := by
  match es with
  | [] => exact absurd rfl hne
  | e :: es =>
    obtain ⟨s, fuel, hs, rfl, -, h⟩ := step_of_yields h
    have hstart := streamStart_event rfl hs
    rw [hstart.1] at hne ⊢
    match es with
    | [] => exact absurd rfl hne
    | e :: es =>
      obtain ⟨s', fuel, hs', rfl, -, h⟩ := step_of_yields h
      rw [step, hstart.2] at hs'
      rcases documentStart_event hs' with ⟨he, _⟩ | ⟨he, hfinished⟩
      · exact ⟨es, by rw [he]⟩
      · rw [he] at hne
        match es with
        | [] => exact absurd rfl hne
        | _ :: _ =>
          obtain ⟨_, _, _, _, hphase, _⟩ := step_of_yields h
          exact absurd hfinished hphase

theorem items_succ {r : Reader} (hr : r.phase ≠ .finished) (fuel : Nat) :
    items (fuel + 1) r =
      match r.step with
      | .error f => [.fault f.fault f.mark]
      | .ok s => .event s.event s.mark :: items fuel s.reader := by
  rw [items]
  split
  · rename_i h
    exact absurd h hr
  · rfl

/-- Where a document starts and no fault comes, a part is told. -/
theorem part_of_document {ts : Token.Stream} {fuel : Nat}
    (hdoc : (items (fuel + 3) (start ts)).any Item.startsDocument = true)
    (hall : ∀ item ∈ items (fuel + 3) (start ts), item.event?.isSome) :
    Item.kinds (items (fuel + 3) (start ts)) ≠ [] := by
  have hphase : (start ts).phase ≠ .finished := Phase.noConfusion
  rw [items_succ hphase] at hdoc hall ⊢
  cases hs : (start ts).step with
  | error f => simp [hs, Item.startsDocument] at hdoc
  | ok s =>
    obtain ⟨he, hnext⟩ := streamStart_event rfl hs
    have hphase : s.reader.phase ≠ .finished := by simp [hnext]
    simp only [hs, he, items_succ hphase] at hdoc hall ⊢
    cases hs' : s.reader.step with
    | error f => simp [hs', Item.startsDocument] at hdoc
    | ok s' =>
      have hstart := hs'
      rw [step, hnext] at hstart
      rcases documentStart_event hstart with ⟨he', hawaits⟩ | ⟨he', hfinished⟩
      · have hphase : s'.reader.phase ≠ .finished := by
          rcases hawaits with h | h <;> simp [h]
        simp only [hs', he', items_succ hphase] at hall ⊢
        cases hs'' : s'.reader.step with
        | error f => simp [hs'', Item.event?] at hall
        | ok s'' =>
          obtain ⟨k, hk⟩ := Option.isSome_iff_exists.mp (content_event hawaits hs'')
          simp [Item.kinds, Item.event?, hk]
      · simp [hs', he', items, hfinished, Item.startsDocument] at hdoc

end YamlCodec.Event.Reader
