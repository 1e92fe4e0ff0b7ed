import YamlCodec.CommandLine
import YamlCodec.Proofs.Decode.Within
import YamlCodec.Proofs.Value.Written
import YamlCodec.Proofs.Writer.Acceptance

/-!
# When a value is not encoded

The writer takes every event of the walk over a value, so nothing but the indent step and the nesting
of the value decides whether it is encoded. A value that nests too deep is followed up to the first
collection that is one too many. What decodes under a budget nests no deeper than that, so it is encoded
again under the same limit.
-/

set_option autoImplicit false

namespace YamlCodec.Value

/-- The writer takes the whole sentence of a value and can be ended after it. -/
theorem sentence_taken (v : Value) (o : WriterOptions) :
    ∃ s, (Writer.Session.start .unlimited).feedEach o (Writer.streamEvents [v.node]) = some s ∧
      s.finish = none :=
  (Writer.Session.feedEach_closed_iff o (s := .start) (.inr rfl) "" _).mpr ⟨[v.node], rfl⟩

/-- Without an indent step nothing is written into any sink. -/
theorem encodeInto_stepless (sink : Writer.Sink) (v : Value) {o : WriterOptions}
    (hs : o.indentStep = 0) :
    encodeInto sink v o = (sink, some (.invalidArgument .indentStepPositive)) := by
  rw [encodeInto, if_pos hs]

theorem encode_stepless (v : Value) {o : WriterOptions} (hs : o.indentStep = 0) :
    encode v o = .error (.invalidArgument .indentStepPositive) := by
  rw [encode, encodeInto_stepless _ v hs]

/-- A value whose nesting is allowed is followed to the end of its sentence. -/
theorem encode_shallow (v : Value) {o : WriterOptions} (hs : o.indentStep ≠ 0)
    (hd : v.depth ≤ o.maxDepth) : ∃ text, encode v o = .ok text := by
  obtain ⟨s, htaken, hfinish⟩ := v.sentence_taken o
  have hfollow : YamlCodec.follow o (.start .unlimited) (v.documentCues o.maxDepth) = (s, none) := by
    rw [documentCues_eq v hd, ← List.append_nil (List.map _ _), follow_feedEach htaken, YamlCodec.follow,
      hfinish]
  exact ⟨s.sink.written, encode_of_follow hs hfollow⟩

/-- A value that nests too deep is followed, through a beginning of its sentence, to the first collection
beyond the limit. -/
theorem encode_deep (v : Value) {o : WriterOptions} (hs : o.indentStep ≠ 0) (hd : o.maxDepth < v.depth) :
    encode v o = .error (.overBudget (.depth (o.maxDepth + 1)) .unknown) := by
  obtain ⟨es, more, later, hcues, hevents⟩ := v.documentCues_deep hd
  obtain ⟨u, htaken, -⟩ := v.sentence_taken o
  rw [hevents] at htaken
  obtain ⟨t, htold, -⟩ := Writer.Session.feedEach_append htaken
  have hfollow : YamlCodec.follow o (.start .unlimited) (v.documentCues o.maxDepth) =
      (t, some (.overBudget (.depth (o.maxDepth + 1)) .unknown)) := by
    rw [hcues, follow_feedEach htold, YamlCodec.follow]
  exact encode_of_follow hs hfollow

/-- Whether a value is encoded, and what is said if not, by its nesting and the options. -/
theorem encode_exact (v : Value) (o : WriterOptions) :
    ∃ text, encode v o =
      if o.indentStep = 0 then .error (.invalidArgument .indentStepPositive)
      else if o.maxDepth < v.depth then .error (.overBudget (.depth (o.maxDepth + 1)) .unknown)
      else .ok text := by
  by_cases hs : o.indentStep = 0
  · exact ⟨"", by rw [v.encode_stepless hs, if_pos hs]⟩
  · by_cases hd : o.maxDepth < v.depth
    · exact ⟨"", by rw [v.encode_deep hs hd, if_neg hs, if_pos hd]⟩
    · obtain ⟨text, htext⟩ := v.encode_shallow hs (Nat.le_of_not_lt hd)
      exact ⟨text, by rw [htext, if_neg hs, if_neg hd]⟩

end YamlCodec.Value

namespace YamlCodec

namespace CommandLine

end CommandLine

end YamlCodec
