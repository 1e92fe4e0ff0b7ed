import YamlCodec.Proofs.Writer.Acceptance
import YamlCodec.Proofs.Writer.History

/-!
# Refused events do nothing

An event is refused before anything is written or settled. So a run that goes on after refusals is the
run of the events that were taken, to which the grammar of sentences applies.
-/

set_option autoImplicit false

namespace YamlCodec.Writer.Session

/-- An event that is refused leaves the state, the text and the room of the sink as they are, so that any
run is that of the events which were not refused. Over a sink without a limit these are the events that
were taken: they are taken alone as well, with the same state and text in the end, and a writer can be
ended there just if they are a sentence. -/
theorem refused_events_do_nothing (o : WriterOptions) :
    (∀ (s t : Session) (e : Event) (r : Refusal),
      s.feed o e = (t, some (.refused r)) → t = s) ∧
    (∀ (s : Session) (es : List Event),
      s.feedAll o (s.history o es).attempted = s.feedAll o es) ∧
    (∀ (s : Session) (es : List Event), s.sink.room = none →
      (s.history o es).taken.Sublist es ∧
      s.feedEach o (s.history o es).taken = some (s.feedAll o es) ∧
      s.feedAll o (s.history o es).taken = s.feedAll o es) ∧
    ∀ (w : String) (es : List Event),
      ((start ⟨w, none⟩).feedAll o es).finish = none ↔
        IsSentence ((start ⟨w, none⟩).history o es).taken := by
  refine ⟨fun s t e r h => feed_of_refused o h, feedAll_attempted o, ?_, ?_⟩
  · rintro ⟨state, written, room⟩ es rfl
    have heach := feedEach_taken o state written es
    refine ⟨?_, heach, feedAll_of_feedEach o heach⟩
    have hsub := (history o ⟨state, ⟨written, none⟩⟩ es).taken_sublist
    rwa [history_events] at hsub
  · intro w es
    have heach := feedEach_taken o .start w es
    have hclosed := feedEach_closed_iff o (s := .start) (.inr rfl) w
      (history o ⟨.start, ⟨w, none⟩⟩ es).taken
    rw [heach] at hclosed
    constructor
    · intro hfinish
      exact hclosed.mp ⟨_, rfl, hfinish⟩
    · intro hsentence
      obtain ⟨u, hu, hfinish⟩ := hclosed.mpr hsentence
      obtain rfl := Option.some.inj hu
      exact hfinish

end YamlCodec.Writer.Session
