import YamlCodec.Decode.Text
import YamlCodec.Proofs.Decode.Within
import YamlCodec.Proofs.Event.Opening
import YamlCodec.Proofs.Value.Size

/-!
# Decoding does not amplify

The counts that a budget limits also limit the value: there is no value or key in it that was not paid
for by an event, nor any text that was not paid for by its bytes. An alias is free as a node, so that
every alias met on the way may be one more null.
-/

set_option autoImplicit false

namespace YamlCodec
open Decode

/-- The number of aliases that are met while items are decoded. -/
def aliasesMet (items : List Item) (b : Option Budget) : Nat :=
  ((Supply.ofItems (b.map Meter.start) .unknown items).used.map Part.kind).countP
    Part.Kind.isAlias

/-- What a budget lets a decoded value hold, for a number of aliases. Bytes beyond the ceiling of their
count are not limited. -/
structure Value.AllowedBy (v : Value) (b : Budget) (aliases : Nat) : Prop where
  nodes : v.size ≤ b.maxNodes + aliases
  events : v.size ≤ b.maxEvents
  bytes : b.maxScalarBytes < Meter.byteCeiling → v.textBytes ≤ b.maxScalarBytes
  depth : v.depth ≤ b.maxDepth

/-- What a tree counts as limits its value. -/
theorem Counts.Within.allows {t : Tree} {v : Value} (ht : t.value? = some v) {b : Budget}
    (h : (zero.bear t.load).Within b) : v.AllowedBy b t.load.aliases := by
  obtain ⟨he, hn, hd, hb⟩ := h
  simp only [bear, zero, Nat.zero_add, Nat.zero_max] at he hn hd hb
  obtain ⟨hsize, hevents⟩ := t.load_size ht
  have hdepth := (t.load_covers ht).depth
  rw [v.load_depth] at hdepth
  constructor
  · exact Nat.le_trans hsize (Nat.add_le_add_right hn _)
  · exact Nat.le_trans hevents he
  · intro hceiling
    have hbytes := t.load_textBytes ht
    omega
  · exact Nat.le_trans hdepth hd

theorem allowed_of_decode {items : List Item} (hk : Item.kinds items ≠ []) {b : Budget} {v : Value}
    (h : decodeItems items (some b) = .ok v) : v.AllowedBy b (aliasesMet items (some b)) := by
  rcases used_of_decode h rfl with ⟨hparts, ⟨l, hend⟩, _⟩ | ⟨t, es, hused, ht, _, hes, hfits⟩
  · have hkinds := kinds_of_exhausted hend
    rw [hparts] at hkinds
    exact absurd hkinds.symm hk
  · have haliases : aliasesMet items (some b) = t.load.aliases := by
      rw [t.load_aliases, ← hused]
      rfl
    rw [haliases]
    exact (Counts.bear_within (Nat.le_refl 0) hes hfits).allows ht

/-- A text that has a document and decodes tells a part. -/
theorem kinds_of_document {s : String} (hdoc : (Event.read s).any Item.startsDocument = true)
    {b : Option Budget} {v : Value} (h : decode s b = .ok v) : Item.kinds (Event.read s) ≠ [] := by
  intro hnone
  have hall : ∀ item ∈ Event.read s, item.event?.isSome := by
    rcases used_of_decode h rfl with ⟨_, ⟨l, hend⟩, _⟩ | ⟨t, es, _, _, hpre, hes, _⟩
    · exact events_of_exhausted hend
    · have hprefix := Item.kinds_prefix hpre
      rw [hes, hnone] at hprefix
      exact absurd (List.prefix_nil.mp hprefix) t.kinds_ne_nil
  exact Event.Reader.part_of_document hdoc hall hnone

/-- Of items that tell a part, and of any text with a document, decoding under a budget makes no value
with more values and keys than the budget allows nodes, but for the aliases met, or events, with more
bytes of text than it allows bytes of scalars, or deeper than it allows collections to nest. -/
theorem decode_never_amplifies (b : Budget) :
    (∀ (items : List Item) (v : Value), Item.kinds items ≠ [] →
      decodeItems items (some b) = .ok v → v.AllowedBy b (aliasesMet items (some b))) ∧
    ∀ (text : String) (v : Value), (Event.read text).any Item.startsDocument = true →
      decode text (some b) = .ok v → v.AllowedBy b (aliasesMet (Event.read text) (some b)) :=
  ⟨fun _ _ hk h => allowed_of_decode hk h,
    fun _ _ hdoc h => allowed_of_decode (kinds_of_document hdoc h) h⟩

/-- Four nodes and an alias are read, and of the two values of one key the alias is kept. -/
theorem decode_never_amplifies_aliases :
    (Event.read "{k: &a xy, k: *a}").any Item.startsDocument = true ∧
      decode "{k: &a xy, k: *a}" (some { maxNodes := 4 }) = .ok (.object [("k", .null)]) ∧
      (Value.object [("k", .null)]).AllowedBy { maxNodes := 4 } 1 := by
  have hdoc : (Event.read "{k: &a xy, k: *a}").any Item.startsDocument = true := by decide +kernel
  have hread : decode "{k: &a xy, k: *a}" (some { maxNodes := 4 }) =
      .ok (.object [("k", .null)]) := by rfl
  have haliases : aliasesMet (Event.read "{k: &a xy, k: *a}") (some { maxNodes := 4 }) = 1 := by
    decide +kernel
  exact ⟨hdoc, hread, haliases ▸ (decode_never_amplifies _).2 _ _ hdoc hread⟩

end YamlCodec
