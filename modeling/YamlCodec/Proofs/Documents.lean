import YamlCodec.Proofs.Decode.Stream
import YamlCodec.Proofs.Writer.Acceptance
import YamlCodec.Proofs.Value.Layout

/-!
# What becomes of several documents

A writer puts nothing between the documents of a stream. So the text of the stream is read back as the
first document only if there is no other one, or if the end of its root shows. Block collections of one
kind become one, a plain scalar takes over the text behind it, and any other document after a block
collection makes the text one that cannot be decoded.
-/

set_option autoImplicit false

namespace YamlCodec
open YamlCodec.Writer

namespace Writer.Node

/-- Two block collections of one kind, one behind the other, are one. -/
def merge? : Node → Node → Option Node
  | sequence (n :: items), sequence (m :: more) => some (sequence (n :: items ++ m :: more))
  | mapping (e :: entries), mapping (f :: more) => some (mapping (e :: entries ++ f :: more))
  | _, _ => none

section
variable (o : WriterOptions)

/-- In the first column a collection begins as any entry of it does. -/
theorem sequence_body (n : Node) (items : List Node) :
    (sequence (n :: items)).body o 0 = itemBodies o 0 (n :: items) := rfl

theorem mapping_body (e : Key × Node) (entries : List (Key × Node)) :
    (mapping (e :: entries)).body o 0 = entryBodies o 0 (e :: entries) := rfl

/-- The text does not tell collections that were merged from one that was written so. -/
theorem text_merge {a b c : Node} (h : a.merge? b = some c) : c.text o = a.text o ++ b.text o := by
  rw [text_eq, text_eq, text_eq]
  unfold merge? at h
  split at h
  · obtain rfl := Option.some.inj h
    rw [List.cons_append, sequence_body, sequence_body, sequence_body, ← List.cons_append,
      itemBodies_append]
  · obtain rfl := Option.some.inj h
    rw [List.cons_append, mapping_body, mapping_body, mapping_body, ← List.cons_append,
      entryBodies_append]
  · simp at h

end

theorem entryMark?_of_merge {a b : Node} (ha : a.entryMark?.isSome) (h : a.merge? b = none) :
    b.entryMark? ≠ a.entryMark? := by
  intro heq
  rw [← heq] at ha
  unfold entryMark? at heq ha
  split at heq <;> split at heq <;> simp_all [merge?]

theorem entryMark?_of_merged {a b c : Node} (h : a.merge? b = some c) : a.entryMark?.isSome := by
  unfold merge? at h
  split at h
  · rfl
  · rfl
  · simp at h

theorem entryMark?_of_closed {n : Node} (hn : n.isClosed = true) : n.entryMark? = none := by
  cases n with
  | scalar text p => rfl
  | sequence items =>
    obtain rfl := List.isEmpty_iff.mp hn
    rfl
  | mapping entries =>
    obtain rfl := List.isEmpty_iff.mp hn
    rfl

/-- A root shows its end, is a plain scalar, or is a block collection. -/
theorem closed_or_plain_or_open (n : Node) :
    n.isClosed = true ∨ (∃ text p, n = scalar text p ∧ p.style text = .plain) ∨
      n.entryMark?.isSome := by
  cases n with
  | scalar text p =>
    cases p with
    | doubleQuoted => exact .inl rfl
    | any =>
      by_cases h : Scalar.isPlainSafe text.toList = true
      · exact .inr (.inl ⟨text, .any, rfl, by rw [Presentation.style, if_pos h]⟩)
      · exact .inl (by rw [isClosed, Presentation.style, if_neg h]; rfl)
  | sequence items =>
    cases items with
    | nil => exact .inl rfl
    | cons n items => exact .inr (.inr rfl)
  | mapping entries =>
    cases entries with
    | nil => exact .inl rfl
    | cons e entries => exact .inr (.inr rfl)

end Writer.Node

/-- What a stream is decoded to whose documents have these roots. -/
inductive Decodes : List Node → Except Error Value → Prop where
  | empty : Decodes [] (.ok .null)
  | alone (n : Node) : Decodes [n] (.ok n.value)
  /-- The end of the first root shows. -/
  | closed {n : Node} (hn : n.isClosed = true) (more : List Node) : Decodes (n :: more) (.ok n.value)
  /-- A plain scalar goes on with the text of what is after it. -/
  | joined {text joined : String} {p : Presentation} (hp : p.style text = .plain) (hj : joined ≠ "")
      (next : Node) (more : List Node) :
      Decodes (.scalar text p :: next :: more) (.ok (.string (text ++ " " ++ joined)))
  /-- A block collection goes on with one of the same kind. -/
  | merged {a b c : Node} {more : List Node} {r : Except Error Value} (h : a.merge? b = some c)
      (hr : Decodes (c :: more) r) : Decodes (a :: b :: more) r
  /-- A block collection does not go on with anything else. -/
  | mixed {a b : Node} (ha : a.entryMark?.isSome) (h : a.merge? b = none) (more : List Node)
      (f : Source.Fault) (m : Source.Mark) : Decodes (a :: b :: more) (.error (.ofFault f m))

/-- The first document is told where it is alone or its end shows. -/
theorem Decodes.first {n : Node} {more : List Node} {r : Except Error Value}
    (h : Decodes (n :: more) r) (hn : more = [] ∨ n.isClosed = true) : r = .ok n.value := by
  cases h with
  | alone => rfl
  | closed => rfl
  | joined hp =>
    have hclosed := hn.resolve_left (List.cons_ne_nil _ _)
    rw [Node.isClosed, hp] at hclosed
    simp [Scalar.Style.isQuoted] at hclosed
  | merged h =>
    have hopen := Node.entryMark?_of_merged h
    rw [Node.entryMark?_of_closed (hn.resolve_left (List.cons_ne_nil _ _))] at hopen
    simp at hopen
  | mixed hopen =>
    rw [Node.entryMark?_of_closed (hn.resolve_left (List.cons_ne_nil _ _))] at hopen
    simp at hopen

section
variable (o : WriterOptions) (hbraces : o.emptyAsBraces = true)
include hbraces

/-- The texts of the roots decode so, whatever the options for the indentation are. -/
theorem decodes_texts (n : Node) (more : List Node) :
    Decodes (n :: more)
      (decode (String.ofList ((n :: more).flatMap fun n => n.text o)) none) := by
  induction more generalizing n with
  | nil =>
    have hvalue : (n.tree o.emptyAsBraces).value? = some n.value := by
      rw [hbraces]
      exact n.tree_value
    rw [List.flatMap_singleton, decode_text o n hvalue]
    exact .alone n
  | cons next more ih =>
    rcases n.closed_or_plain_or_open with hclosed | ⟨text, p, rfl, hp⟩ | hopen
    · rw [decode_closed o hbraces hclosed]
      exact .closed hclosed _
    · obtain ⟨joined, hne, hdecode⟩ := decode_plain o hbraces hp next more
      rw [hdecode]
      exact .joined hp hne next more
    · cases hmerge : n.merge? next with
      | none =>
        obtain ⟨f, m, hdecode⟩ :=
          decode_open o hbraces hopen (Node.entryMark?_of_merge hopen hmerge) more
        rw [hdecode]
        exact .mixed hopen hmerge more f m
      | some c =>
        -- both are read as if the one collection had been written
        have htext : ((n :: next :: more).flatMap fun n => n.text o) =
            (c :: more).flatMap fun n => n.text o := by
          simp only [List.flatMap_cons, Node.text_merge o hmerge, List.append_assoc]
        rw [htext]
        exact .merged hmerge (ih c)

/-- A writer that puts brackets around empty collections takes the events of a stream only. As long as words
hold the columns, what it has written in the end is decoded to what becomes of the documents, which is the
first one if this is alone or its end shows. -/
theorem documents_run_together {es : List Writer.Event} {s : Session}
    (hs : (Session.start ⟨"", none⟩).feedEach o es = some s) (hfinish : s.finish = none) :
    IsSentence es ∧
      ((∀ c ∈ (Session.start ⟨"", none⟩).columns o.unbounded es, o.Holds c) →
        (∀ roots, es = streamEvents roots → Decodes roots (decode s.sink.written none)) ∧
        ∀ n more, es = streamEvents (n :: more) → more = [] ∨ n.isClosed = true →
          decode s.sink.written none = .ok n.value) := by
  refine ⟨(Session.feedEach_closed_iff o (s := .start) (.inr rfl) "" es).mp ⟨s, hs, hfinish⟩, fun hw => ?_⟩
  have hdecodes : ∀ roots, es = streamEvents roots → Decodes roots (decode s.sink.written none) := by
    rintro roots rfl
    have hwritten := Session.feedEach_tells (State.tells_sentence o roots) ""
    rw [Session.feedEach_unbounded hw] at hs
    obtain rfl := Option.some.inj (hs.symm.trans hwritten)
    rw [String.empty_append]
    cases roots with
    | nil =>
      have hempty : decode (String.ofList []) none = .ok .null := by rfl
      rw [List.flatMap_nil, hempty]
      exact .empty
    | cons n more => exact decodes_texts o hbraces n more
  exact ⟨hdecodes, fun n more hes hn => (hdecodes _ hes).first hn⟩

end

/-- Two lists become one. -/
theorem documents_run_together_lists :
    let es : List Writer.Event :=
      streamEvents [.sequence [.scalar "a" .any], .sequence [.scalar "b" .any]]
    let s : Session := ⟨⟨.finished, []⟩, ⟨"- a\n- b\n", none⟩⟩
    ({} : WriterOptions).emptyAsBraces = true ∧
      (Session.start ⟨"", none⟩).feedEach {} es = some s ∧ s.finish = none ∧ IsSentence es ∧
      (∀ roots, es = streamEvents roots → Decodes roots (decode s.sink.written none)) ∧
      ∀ n more, es = streamEvents (n :: more) → more = [] ∨ n.isClosed = true →
        decode s.sink.written none = .ok n.value := by
  intro es s
  have hs : (Session.start ⟨"", none⟩).feedEach {} es = some s := by rfl
  obtain ⟨hsentence, hdecodes⟩ := documents_run_together {} rfl hs rfl
  exact ⟨rfl, hs, rfl, hsentence, hdecodes (by decide)⟩

/-- Two scalars become one, which is not the first of them. -/
theorem documents_run_together_scalars :
    ({} : WriterOptions).emptyAsBraces = true ∧
      ∃ s, (Session.start ⟨"", none⟩).feedEach {}
          (streamEvents [.scalar "a" .any, .scalar "b" .any]) = some s ∧ s.finish = none ∧
        s.sink.written = "a\nb\n" ∧ decode s.sink.written none = .ok (.string "a b") ∧
        decode s.sink.written none ≠ .ok (Node.scalar "a" .any).value := by
  have hread : Event.read "a\nb\n" =
      [.event .streamStart ⟨0, 1, 0⟩, .event .documentStart ⟨0, 1, 0⟩,
        .event (.scalar "a b" .plain none) ⟨0, 1, 0⟩, .event .documentEnd ⟨4, 3, 0⟩,
        .event .streamEnd ⟨4, 3, 0⟩] := by
    rw [Event.read, String.toList_ofList]
    decide +kernel
  have hdecode : decode "a\nb\n" none = .ok (.string "a b") := by
    rw [decode, hread]
    rfl
  have hvalue : (Node.scalar "a" .any).value = .string "a" := by rfl
  refine ⟨rfl, ⟨⟨.finished, []⟩, ⟨"a\nb\n", none⟩⟩, by rfl, rfl, rfl, hdecode, ?_⟩
  intro h
  rw [hvalue, hdecode] at h
  simp at h

end YamlCodec
