import YamlCodec.Proofs.Writer.Transition

/-!
# The grammar of sentences from left to right

What may still come of a document is a language of its own, which the kinds of the open collections
determine. What is left of it after one event is the language of other kinds.
-/

set_option autoImplicit false

namespace YamlCodec.Writer

/-- What completes the collections around a node that has just ended, innermost first. -/
def Closes : List Kind → List Event → Prop
  | [], es => es = []
  | .sequence :: ks, es =>
    ∃ items rest, es = Node.itemEvents items ++ .sequenceEnd :: rest ∧ Closes ks rest
  | .mapping _ :: ks, es =>
    ∃ entries rest, es = Node.entryEvents entries ++ .mappingEnd :: rest ∧ Closes ks rest

/-- What completes a root: a node is still to come where there is none, and where a key was. -/
def Completes : List Kind → List Event → Prop
  | [], es => ∃ n, es = Node.events n
  | .mapping true :: ks, es => ∃ n rest, es = Node.events n ++ rest ∧ Closes (.mapping true :: ks) rest
  | ks, es => Closes ks es

/-- Documents up to the end of the stream. -/
def EndsStream (es : List Event) : Prop :=
  ∃ roots : List Node, es = roots.flatMap Node.documentEvents ++ [.streamEnd]

/-- The rest of a document and of the stream after it. -/
def InDocument (body : List Event → Prop) (es : List Event) : Prop :=
  ∃ before after, es = before ++ .documentEnd :: after ∧ body before ∧ EndsStream after

/-- Which events the collection on top leaves room for. -/
def Fits (ks : List Kind) : Event → Prop
  | .scalar _ _ => True
  | .sequenceStart | .mappingStart => TakesNode ks
  | .sequenceEnd => ∃ rest, ks = .sequence :: rest
  | .mappingEnd => ∃ rest, ks = .mapping false :: rest
  | _ => False

/-- Where a node may stand, what completes the root begins with one or ends the sequence around. -/
theorem completes_of_node {ks : List Kind} {rest : List Event} (n : Node) (hk : TakesNode ks)
    (h : Closes ks rest) : Completes ks (n.events ++ rest) := by
  match ks with
  | [] => exact ⟨n, by rw [h, List.append_nil]⟩
  | .mapping true :: ks => exact ⟨n, rest, rfl, h⟩
  | .sequence :: ks =>
    obtain ⟨items, es, rfl, hc⟩ := h
    exact ⟨n :: items, es, by simp [Node.itemEvents], hc⟩

/-- A node that is not the end of a sequence comes first where a node may stand. -/
theorem node_of_completes {ks : List Kind} {e : Event} {es : List Event} (hk : TakesNode ks)
    (he : e ≠ .sequenceEnd) (h : Completes ks (e :: es)) :
    ∃ n rest, e :: es = Node.events n ++ rest ∧ Closes ks rest := by
  match ks with
  | [] =>
    obtain ⟨n, hn⟩ := h
    exact ⟨n, [], by rw [hn, List.append_nil], rfl⟩
  | .mapping true :: ks => exact h
  | .sequence :: ks =>
    obtain ⟨items, rest, hi, hc⟩ := h
    cases items with
    | nil => simp [Node.itemEvents] at hi; exact absurd hi.1 he
    | cons n items =>
      exact ⟨n, _, by rw [hi, Node.itemEvents, List.append_assoc], items, rest, rfl, hc⟩

theorem completes_scalar {ks : List Kind} (hk : TakesNode ks) (t : String) (p : Presentation)
    (es : List Event) : Completes ks (.scalar t p :: es) ↔ Closes ks es := by
  constructor
  · intro h
    obtain ⟨n, rest, hn, hc⟩ := node_of_completes hk (by simp) h
    cases n with
    | scalar t' p' =>
      simp only [Node.events, List.cons_append, List.nil_append, List.cons.injEq] at hn
      rwa [hn.2]
    | sequence items => simp [Node.events] at hn
    | mapping entries => simp [Node.events] at hn
  · intro h
    exact completes_of_node (.scalar t p) hk h

theorem completes_key (ks : List Kind) (t : String) (p : Presentation) (es : List Event) :
    Completes (.mapping false :: ks) (.scalar t p :: es) ↔ Completes (.mapping true :: ks) es := by
  constructor
  · rintro ⟨entries, rest, he, hc⟩
    cases entries with
    | nil => simp [Node.entryEvents] at he
    | cons en entries =>
      obtain ⟨k, n⟩ := en
      simp only [Node.entryEvents, List.cons_append, List.append_assoc, List.cons.injEq] at he
      exact ⟨n, _, he.2, entries, rest, rfl, hc⟩
  · rintro ⟨n, es', rfl, entries, rest, rfl, hc⟩
    exact ⟨((t, p), n) :: entries, rest, by simp [Node.entryEvents], hc⟩

theorem completes_start {ks : List Kind} (hk : TakesNode ks) {e : Event} {k : Kind}
    (he : started? e = some k) (es : List Event) :
    Completes ks (e :: es) ↔ Completes (k :: ks) es := by
  constructor
  · intro h
    obtain ⟨n, rest, hn, hc⟩ := node_of_completes hk (by rintro rfl; simp [started?] at he) h
    cases n with
    | scalar t p => simp [Node.events] at hn; simp [hn.1, started?] at he
    | sequence items =>
      simp only [Node.events, List.cons_append, List.append_assoc, List.nil_append,
        List.cons.injEq] at hn
      obtain ⟨rfl, rfl⟩ := hn
      cases he
      exact ⟨items, rest, rfl, hc⟩
    | mapping entries =>
      simp only [Node.events, List.cons_append, List.append_assoc, List.nil_append,
        List.cons.injEq] at hn
      obtain ⟨rfl, rfl⟩ := hn
      cases he
      exact ⟨entries, rest, rfl, hc⟩
  · intro h
    cases e <;> simp [started?] at he <;> subst he
    · obtain ⟨items, rest, rfl, hc⟩ := h
      simpa [Node.events] using completes_of_node (.sequence items) hk hc
    · obtain ⟨entries, rest, rfl, hc⟩ := h
      simpa [Node.events] using completes_of_node (.mapping entries) hk hc

theorem node_head {n : Node} {e : Event} {es rest : List Event} (h : e :: es = n.events ++ rest) :
    (∃ t p, e = .scalar t p) ∨ e = .sequenceStart ∨ e = .mappingStart := by
  cases n with
  | scalar t p => simp [Node.events] at h; exact .inl ⟨t, p, h.1⟩
  | sequence items => simp [Node.events] at h; exact .inr (.inl h.1)
  | mapping entries => simp [Node.events] at h; exact .inr (.inr h.1)

theorem completes_sequenceEnd (ks : List Kind) (es : List Event) :
    Completes (.sequence :: ks) (.sequenceEnd :: es) ↔ Closes ks es := by
  constructor
  · rintro ⟨items, rest, he, hc⟩
    cases items with
    | nil => simp [Node.itemEvents] at he; rwa [he]
    | cons n items =>
      rw [Node.itemEvents, List.append_assoc] at he
      simpa using node_head he
  · intro h
    exact ⟨[], es, rfl, h⟩

theorem completes_mappingEnd (ks : List Kind) (es : List Event) :
    Completes (.mapping false :: ks) (.mappingEnd :: es) ↔ Closes ks es := by
  constructor
  · rintro ⟨entries, rest, he, hc⟩
    cases entries with
    | nil => simp [Node.entryEvents] at he; rwa [he]
    | cons en entries => simp [Node.entryEvents] at he
  · intro h
    exact ⟨[], es, rfl, h⟩

theorem completes_end {e : Event} {k : Kind} (he : ended? e = some k) (ks : List Kind)
    (es : List Event) : Completes (k :: ks) (e :: es) ↔ Closes ks es := by
  cases e <;> simp [ended?] at he <;> subst he
  · exact completes_sequenceEnd ks es
  · exact completes_mappingEnd ks es

theorem not_completes_nil (ks : List Kind) : ¬ Completes ks [] := by
  intro h
  match ks with
  | [] =>
    obtain ⟨n, hn⟩ := h
    cases n <;> simp [Node.events] at hn
  | .mapping true :: ks =>
    obtain ⟨n, rest, hn, _⟩ := h
    cases n <;> simp [Node.events] at hn
  | .mapping false :: ks =>
    obtain ⟨entries, rest, he, _⟩ := h
    simp at he
  | .sequence :: ks =>
    obtain ⟨items, rest, he, _⟩ := h
    simp at he

theorem fits_of_node_head (ks : List Kind) (hk : TakesNode ks) {n : Node} {e : Event}
    {es rest : List Event} (h : e :: es = n.events ++ rest) : Fits ks e := by
  rcases node_head h with ⟨t, p, rfl⟩ | rfl | rfl
  · trivial
  · exact hk
  · exact hk

theorem fits_of_completes {ks : List Kind} {e : Event} {es : List Event}
    (h : Completes ks (e :: es)) : Fits ks e := by
  match ks with
  | [] =>
    obtain ⟨n, hn⟩ := h
    exact fits_of_node_head [] trivial (hn.trans (List.append_nil _).symm)
  | .mapping true :: ks =>
    obtain ⟨n, rest, hn, _⟩ := h
    exact fits_of_node_head (.mapping true :: ks) trivial hn
  | .mapping false :: ks =>
    obtain ⟨entries, rest, he, _⟩ := h
    cases entries with
    | nil => simp [Node.entryEvents] at he; exact he.1 ▸ ⟨ks, rfl⟩
    | cons en entries => simp [Node.entryEvents] at he; exact he.1 ▸ trivial
  | .sequence :: ks =>
    obtain ⟨items, rest, he, _⟩ := h
    cases items with
    | nil => simp [Node.itemEvents] at he; exact he.1 ▸ ⟨ks, rfl⟩
    | cons n items =>
      rw [Node.itemEvents, List.append_assoc] at he
      exact fits_of_node_head (.sequence :: ks) trivial he

theorem inDocument_cons {body : List Event → Prop} (hb : ¬ body []) (e : Event) (es : List Event) :
    InDocument body (e :: es) ↔ InDocument (fun b => body (e :: b)) es := by
  constructor
  · rintro ⟨before, after, h, hbefore, hafter⟩
    cases before with
    | nil => exact absurd hbefore hb
    | cons x before =>
      simp only [List.cons_append, List.cons.injEq] at h
      obtain ⟨rfl, rfl⟩ := h
      exact ⟨before, after, rfl, hbefore, hafter⟩
  · rintro ⟨before, after, rfl, hbefore, hafter⟩
    exact ⟨e :: before, after, rfl, hbefore, hafter⟩

theorem inDocument_closed (e : Event) (es : List Event) :
    InDocument (Closes []) (e :: es) ↔ e = .documentEnd ∧ EndsStream es := by
  constructor
  · rintro ⟨before, after, h, rfl, hafter⟩
    simp only [List.nil_append, List.cons.injEq] at h
    exact ⟨h.1, h.2 ▸ hafter⟩
  · rintro ⟨rfl, h⟩
    exact ⟨[], es, rfl, rfl, h⟩

theorem endsStream_cons (e : Event) (es : List Event) :
    EndsStream (e :: es) ↔
      (e = .documentStart ∧ InDocument (Completes []) es) ∨ (e = .streamEnd ∧ es = []) := by
  constructor
  · rintro ⟨roots, h⟩
    cases roots with
    | nil => simp at h; exact .inr h
    | cons root roots =>
      simp only [List.flatMap_cons, Node.documentEvents, List.cons_append, List.append_assoc,
        List.nil_append, List.cons.injEq] at h
      exact .inl ⟨h.1, root.events, _, h.2, ⟨root, rfl⟩, roots, rfl⟩
  · rintro (⟨rfl, before, after, rfl, ⟨root, rfl⟩, roots, rfl⟩ | ⟨rfl, rfl⟩)
    · exact ⟨root :: roots, by simp [Node.documentEvents]⟩
    · exact ⟨[], rfl⟩

theorem inDocument_congr {p q : List Event → Prop} (h : ∀ es, p es ↔ q es) (es : List Event) :
    InDocument p es ↔ InDocument q es := by
  have : p = q := funext fun es => propext (h es)
  rw [this]

end YamlCodec.Writer
