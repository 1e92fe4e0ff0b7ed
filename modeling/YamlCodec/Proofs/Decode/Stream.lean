import YamlCodec.Proofs.Decode.Text
import YamlCodec.Proofs.Scalar.Spaced
import YamlCodec.Proofs.Token.Stream
import YamlCodec.Proofs.Value.Denoted

/-!
# Decoding several roots

The texts of several roots, one behind the other, are decoded to the first one if its end shows. A plain
scalar takes the root after it for its own text, and a block collection that is followed by a root of
another kind is no document at all.
-/

set_option autoImplicit false

namespace YamlCodec
open YamlCodec.Event YamlCodec.Writer Decode

namespace Event.Reader

/-- From a first token that is a scalar a reader yields the events of this scalar first. -/
theorem items_scalar {text : List Char} {style : Scalar.Style} {ts : Token.Stream}
    (hts : Token.GivesOut [.streamStart, .scalar text style] ts) (fuel : Nat) :
    ∃ its more, items (fuel + 3) (start ts) = its ++ more ∧
      its.map Item.event? =
        (Tree.scalar (String.ofList text) style none).streamEvents.map some := by
  obtain ⟨tokens, failure⟩ := ts
  obtain ⟨after, hts⟩ := hts
  obtain ⟨m, tokens, rfl, htext⟩ := tokens_head hts.symm
  obtain ⟨m', us, rfl, _⟩ := tokens_head htext
  have hgives : Gives (((start ⟨⟨.streamStart, m⟩ :: ⟨.scalar text style, m'⟩ :: us, failure⟩).before
      (⟨.scalar text style, m'⟩ :: us) .node [.documentEnd]).node true false)
      (Tree.scalar (String.ofList text) style none).kinds _ :=
    Gives.cons rfl rfl (.nil _)
  obtain ⟨its, hits, hitems⟩ := items_document (u := ⟨.scalar text style, m'⟩) trivial hgives
  exact ⟨its, _, by rw [Nat.add_comm]; exact hitems fuel, hits⟩

section
variable (r : Reader) {us : List Token} (phase : Phase) (p : Phase) (ps : List Phase)

theorem blockSequence_fails (h : ∀ u ∈ us.head?, u.kind = .key) :
    ∃ f, (r.before us (.blockSequence false) ps).step = .error f := by
  cases us with
  | nil => exact ⟨_, rfl⟩
  | cons u us =>
    obtain ⟨kind, m⟩ := u
    obtain rfl : kind = Token.Kind.key := h _ rfl
    exact ⟨_, rfl⟩

theorem blockKey_fails (h : ∀ u ∈ us.head?, u.kind = .blockEntry) :
    ∃ f, (r.before us (.blockKey false) ps).step = .error f := by
  cases us with
  | nil => exact ⟨_, rfl⟩
  | cons u us =>
    obtain ⟨kind, m⟩ := u
    obtain rfl : kind = Token.Kind.blockEntry := h _ rfl
    exact ⟨_, rfl⟩

theorem items_fault {r : Reader} {f : Token.Failure} (hr : r.phase ≠ .finished)
    (h : r.step = .error f) (fuel : Nat) : items (fuel + 1) r = [.fault f.fault f.mark] := by
  rw [items]
  split
  · rename_i hphase
    exact absurd hphase hr
  · rw [h]

/-- The parts of a block collection are told but for its end, which an entry of another kind is not. -/
theorem gives_open {n : Node} {mark : Token.Kind} (hn : n.entryMark? = some mark) {ts : List Token}
    (h : ts.map Token.kind = (n.tokens true).dropLast)
    (hus : ∀ u ∈ us.head?, (u.kind = .blockEntry ∨ u.kind = .key) ∧ u.kind ≠ mark) :
    (∃ u vs, ts = u :: vs ∧ OpensNode u.kind) ∧
      ∃ t f, Gives ((r.before (ts ++ us) phase (p :: ps)).node true false)
        (n.tree true).kinds.dropLast t ∧ t.phase ≠ .finished ∧ t.step = .error f := by
  cases n with
  | scalar text p => simp [Node.entryMark?] at hn
  | sequence items =>
    cases items with
    | nil => simp [Node.entryMark?] at hn
    | cons n items =>
      obtain rfl : Token.Kind.blockEntry = mark := Option.some.inj hn
      rw [Node.tokens, ← List.cons_append, List.dropLast_concat] at h
      obtain ⟨m, ts, rfl, hts⟩ := tokens_head h
      have hitems := gives_items true r (n :: items) (List.cons_ne_nil _ _) hts us (.inl rfl)
        (.blockSequence true) (p :: ps)
      have htells := Gives.tells
        (r := r.before (⟨.blockSequenceStart, m⟩ :: (ts ++ us)) (.blockSequence true) (p :: ps)) hitems
      obtain ⟨f, hf⟩ := blockSequence_fails r (p :: ps) fun u hu =>
        (hus u hu).1.resolve_left (hus u hu).2
      rw [Node.tree, Tree.kinds, ← List.cons_append, List.dropLast_concat]
      exact ⟨⟨_, _, rfl, trivial⟩, _, f, Gives.cons rfl rfl htells, Phase.noConfusion, hf⟩
  | mapping entries =>
    cases entries with
    | nil => simp [Node.entryMark?] at hn
    | cons e entries =>
      obtain rfl : Token.Kind.key = mark := Option.some.inj hn
      rw [Node.tokens, ← List.cons_append, List.dropLast_concat] at h
      obtain ⟨m, ts, rfl, hts⟩ := tokens_head h
      have hentries := gives_entries true r (e :: entries) (List.cons_ne_nil _ _) hts us (.inl rfl)
        (.blockKey true) (p :: ps)
      have htells := Gives.tells
        (r := r.before (⟨.blockMappingStart, m⟩ :: (ts ++ us)) (.blockKey true) (p :: ps)) hentries
      obtain ⟨f, hf⟩ := blockKey_fails r (p :: ps) fun u hu =>
        (hus u hu).1.resolve_right (hus u hu).2
      rw [Node.tree, Tree.kinds, ← List.cons_append, List.dropLast_concat]
      exact ⟨⟨_, _, rfl, trivial⟩, _, f, Gives.cons rfl rfl htells, Phase.noConfusion, hf⟩

end

/-- A block collection goes on with no entry of another kind: there its reader ends with a fault. -/
theorem items_open {n next : Node} (hn : n.entryMark?.isSome)
    (hne : next.entryMark? ≠ n.entryMark?) {ts : Token.Stream}
    (hts : Token.ComesTo (.streamStart :: (n.tokens true).dropLast) next.entryMark? ts) {fuel : Nat}
    (hfuel : (n.tree true).kinds.length + 2 ≤ fuel) :
    ∃ its f mark, items fuel (start ts) = its ++ [.fault f mark] ∧ its.map Item.event? =
      (Event.streamStart :: .documentStart ::
        (n.tree true).kinds.dropLast.map Part.Kind.event).map some := by
  obtain ⟨mark, hmark⟩ := Option.isSome_iff_exists.mp hn
  obtain ⟨after, htokens, hafter⟩ := hts.tokens
  obtain ⟨tokens, failure⟩ := ts
  obtain ⟨m, tokens, rfl, hrest⟩ := tokens_head htokens
  obtain ⟨ts, us, rfl, hopen, rfl⟩ := List.map_eq_append_iff.mp hrest
  have hus : ∀ u ∈ us.head?, (u.kind = .blockEntry ∨ u.kind = .key) ∧ u.kind ≠ mark := by
    intro u hu
    rw [List.head?_map, Option.mem_def.mp hu] at hafter
    rw [hmark, ← hafter] at hne
    exact ⟨Node.entryMark?_cases hafter.symm, fun h => hne (congrArg some h)⟩
  obtain ⟨⟨u, vs, rfl, hu⟩, t, f, hgives, hphase, hstep⟩ :=
    gives_open (start ⟨⟨.streamStart, m⟩ :: (ts ++ us), failure⟩) .node .documentEnd [] hmark hopen hus
  obtain ⟨its, hits, hitems⟩ := items_document hu hgives
  have hpos := List.length_pos_iff.mpr (Tree.kinds_ne_nil (n.tree true))
  obtain ⟨extra, rfl⟩ := Nat.exists_eq_add_of_le hfuel
  have hsplit : (n.tree true).kinds.length + 2 + extra =
      (n.tree true).kinds.dropLast.length + 2 + (extra + 1) := by
    rw [List.length_dropLast]
    omega
  refine ⟨its, f.fault, f.mark, ?_, hits⟩
  rw [hsplit]
  exact (hitems _).trans (congrArg (its ++ ·) (items_fault hphase hstep extra))

end Event.Reader

section
variable (o : WriterOptions) (hbraces : o.emptyAsBraces = true)
include hbraces

/-- A root whose end shows is decoded whatever comes after it. -/
theorem decode_closed {n : Node} (hn : n.isClosed = true) (next : Node) (more : List Node) :
    decode (String.ofList ((n :: next :: more).flatMap fun n => n.text o)) none = .ok n.value := by
  obtain ⟨after, htokens⟩ := Token.scan_closed o hbraces hn next more
  have hle := Node.kinds_length_le true n
  have hlength := congrArg List.length htokens
  simp only [List.length_map, List.length_append, List.length_cons] at hlength
  unfold decode Event.read
  rw [String.toList_ofList]
  generalize Token.scan ((n :: next :: more).flatMap fun n => n.text o) = ts at *
  have hfuel : (n.tree true).kinds.length + 2 ≤ 8 * ts.tokens.length + 16 := by omega
  obtain ⟨its, rest, hitems, hits⟩ :=
    Reader.items_node n.tokens_bracketed htokens.symm hfuel
  rw [hitems]
  exact decodeItems_tree (b := none) n.tree_value hits trivial rest

/-- A plain root is decoded together with the text of the next one. -/
theorem decode_plain {text : String} {p : Presentation} (hp : p.style text = .plain) (next : Node)
    (more : List Node) :
    ∃ joined : String, joined ≠ "" ∧
      decode (String.ofList ((.scalar text p :: next :: more).flatMap fun n => n.text o)) none =
        .ok (.string (text ++ " " ++ joined)) := by
  obtain ⟨joined, hne, hgives⟩ := Token.scan_plain o hbraces hp next more
  unfold decode Event.read
  rw [String.toList_ofList]
  generalize Token.scan ((.scalar text p :: next :: more).flatMap fun n => n.text o) = ts at *
  obtain ⟨its, rest, hitems, hits⟩ := Reader.items_scalar hgives (8 * ts.tokens.length + 13)
  have htext : String.ofList (text.toList ++ ' ' :: joined) = text ++ " " ++ String.ofList joined := by
    rw [← String.toList_inj]
    simp
  have hvalue : (Tree.scalar (String.ofList (text.toList ++ ' ' :: joined)) .plain none).value? =
      some (.string (text ++ " " ++ String.ofList joined)) := by
    rw [← htext]
    exact congrArg some (Scalar.infer_spaced (by simp))
  refine ⟨String.ofList joined, fun h => hne (String.ofList_eq_empty_iff.mp h), ?_⟩
  rw [hitems]
  exact decodeItems_tree (b := none) hvalue hits trivial rest

/-- A block collection before a root that does not go on with it is not decoded. -/
theorem decode_open {n next : Node} (hn : n.entryMark?.isSome)
    (hne : next.entryMark? ≠ n.entryMark?) (more : List Node) :
    ∃ f m, decode (String.ofList ((n :: next :: more).flatMap fun n => n.text o)) none =
      .error (.ofFault f m) := by
  have hcomes := Token.scan_open o hbraces (Node.isLeaf_of_entryMark? hn) next more
  obtain ⟨after, htokens, _⟩ := hcomes.tokens
  have hle := Node.kinds_length_le true n
  have hlength := congrArg List.length htokens
  simp only [List.length_map, List.length_append, List.length_cons, List.length_dropLast] at hlength
  unfold decode Event.read
  rw [String.toList_ofList]
  generalize Token.scan ((n :: next :: more).flatMap fun n => n.text o) = ts at *
  have hfuel : (n.tree true).kinds.length + 2 ≤ 8 * ts.tokens.length + 16 := by omega
  obtain ⟨its, f, m, hitems, hits⟩ := Reader.items_open hn hne hcomes hfuel
  have hevents : (n.tree true).streamEvents =
      (.streamStart :: .documentStart :: (n.tree true).kinds.dropLast.map Part.Kind.event) ++
        [((n.tree true).kinds.getLast (n.tree true).kinds_ne_nil).event] := by
    rw [Tree.streamEvents, List.cons_append, List.cons_append, ← List.map_singleton, ← List.map_append,
      List.dropLast_append_getLast]
  refine ⟨f, m, ?_⟩
  rw [hitems]
  exact decodeItems_unfinished n.tree_value hevents hits f m []

end
end YamlCodec
