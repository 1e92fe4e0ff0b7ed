import YamlCodec.Proofs.Value.Node
import YamlCodec.Proofs.Writer.Layout

/-!
# The text of a value

A value whose nesting is allowed is written, and what is written is the block layout of its node.
-/

set_option autoImplicit false

namespace YamlCodec

namespace Writer.Node

/-- The text of a document of one node. -/
def text (o : WriterOptions) (n : Node) : List Char := n.gap .lineStart 0 ++ n.body o 0

end Writer.Node

namespace Writer.State

/-- A document is written behind the ones before it, and leaves nothing pending. -/
theorem tells_documents (o : WriterOptions) (roots : List Node) :
    Tells o.unbounded ⟨.stream, []⟩ (roots.flatMap Node.documentEvents) ⟨.stream, []⟩
      (roots.flatMap fun n => n.text o) := by
  induction roots with
  | nil => exact .nil _
  | cons n roots ih =>
    have hstart : Tells o.unbounded ⟨.stream, []⟩ [.documentStart] ⟨.document false, []⟩ [] :=
      .cons rfl (.nil _)
    have hnode := tells_node o n ⟨.document false, []⟩ rfl rfl
    have hend : Tells o.unbounded ⟨.document true, []⟩ [.documentEnd] ⟨.stream, []⟩ [] :=
      .cons rfl (.nil _)
    apply (((hstart.append hnode).append hend).append ih).congr
    · simp [Node.documentEvents]
    · rfl
    · simp [Node.text, beginEntry, written]

theorem tells_sentence (o : WriterOptions) (roots : List Node) :
    Tells o.unbounded .start (streamEvents roots) ⟨.finished, []⟩ (roots.flatMap fun n => n.text o) := by
  have hstart : Tells o.unbounded .start [.streamStart] ⟨.stream, []⟩ [] := .cons rfl (.nil _)
  have hend : Tells o.unbounded ⟨.stream, []⟩ [.streamEnd] ⟨.finished, []⟩ [] := .cons rfl (.nil _)
  apply ((hstart.append (tells_documents o roots)).append hend).congr
  · rfl
  · rfl
  · rw [List.append_nil, List.nil_append]

end Writer.State

namespace Writer.Session

theorem feedEach_tells {o : WriterOptions} {s t : State} {es : List Event} {cs : List Char}
    (h : State.Tells o s es t cs) (w : String) :
    feedEach o ⟨s, ⟨w, none⟩⟩ es = some ⟨t, ⟨w ++ String.ofList cs, none⟩⟩ := by
  induction h generalizing w with
  | nil s => simp [feedEach]
  | cons he _ ih =>
    rw [feedEach, feed_taken w he]
    simp only [ih]
    rw [String.append_assoc, String.ofList_append]

end Writer.Session

/-- Cues are followed past events that are taken. -/
theorem follow_feedEach {o : WriterOptions} {s t : Writer.Session} {es : List Writer.Event}
    (h : s.feedEach o es = some t) (rest : List Cue) :
    follow o s (es.map .event ++ rest) = follow o t rest := by
  induction es generalizing s with
  | nil => rw [Option.some.inj h, List.map_nil, List.nil_append]
  | cons e es ih =>
    rw [Writer.Session.feedEach] at h
    rw [List.map_cons, List.cons_append, follow]
    rcases hfeed : s.feed o e with ⟨u, _ | x⟩ <;> rw [hfeed] at h
    · exact ih h
    · cases h

/-- A value is encoded as its cues are followed into a sink without a limit. -/
theorem encode_of_follow {v : Value} {o : WriterOptions} (hs : o.indentStep ≠ 0) {s : Writer.Session}
    {failure : Option Error}
    (h : follow o (.start .unlimited) (v.documentCues o.maxDepth) = (s, failure)) :
    encode v o = failure.elim (.ok s.sink.written) .error := by
  rw [encode, encodeInto, if_neg hs]
  simp only [h]
  cases failure <;> rfl

/-- A value that does not nest too deep is written in the layout of its node. -/
theorem Value.encode_eq (v : Value) (o : WriterOptions) (hs : 1 ≤ o.indentStep)
    (hd : v.depth ≤ o.maxDepth) : encode v o.unbounded = .ok (String.ofList (v.node.text o)) := by
  have htold := Writer.Session.feedEach_tells (Writer.State.tells_sentence o [v.node]) ""
  have hfollow := follow_feedEach htold []
  rw [List.append_nil, ← documentCues_eq v hd, List.flatMap_singleton, String.empty_append] at hfollow
  have hne : o.unbounded.indentStep ≠ 0 := Nat.one_le_iff_ne_zero.mp hs
  exact encode_of_follow hne hfollow

end YamlCodec
