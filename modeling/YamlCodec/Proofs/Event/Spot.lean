import YamlCodec.Proofs.Decode.Text
import YamlCodec.Proofs.Token.Spot

/-!
# Events up to a scalar

From the tokens before a place a reader tells the parts of the collections that are open there, each up
to the entry with the place. The scalar is the part that it tells next.
-/

set_option autoImplicit false

namespace YamlCodec.Writer
open YamlCodec.Decode

section
variable (braces : Bool)

/-- The parts of a collection up to where its next entry begins. -/
def Node.openParts : Node → List Part.Kind
  | scalar _ _ => []
  | sequence items => .sequenceStart :: Tree.itemKinds (itemTrees braces items)
  | mapping entries => .mappingStart :: Tree.entryKinds (entryTrees braces entries)

def Level.parts : Level → List Part.Kind
  | items before => (Node.sequence before).openParts braces
  | entry before key =>
    (Node.mapping before).openParts braces ++ [.scalar key.1 (key.2.style key.1) none]

/-- The parts of a document up to the scalar. -/
def Spot.parts : Spot → List Part.Kind
  | node ls => ls.reverse.flatMap (Level.parts braces)
  | key ls before _ =>
    ls.reverse.flatMap (Level.parts braces) ++ (Node.mapping before).openParts braces

theorem Node.openParts_length_le (n : Node) :
    (n.openParts braces).length ≤ (n.openTokens braces).length := by
  cases n with
  | scalar text p => exact Nat.le_refl 0
  | sequence items => exact Nat.succ_le_succ (itemKinds_length_le braces items)
  | mapping entries => exact Nat.succ_le_succ (entryKinds_length_le braces entries)

theorem Level.parts_length_le (ls : List Level) :
    (ls.reverse.flatMap (parts braces)).length ≤ (ls.reverse.flatMap (tokens braces)).length := by
  induction ls with
  | nil => exact Nat.le_refl 0
  | cons l ls ih =>
    have hle : (l.parts braces).length ≤ (l.tokens braces).length := by
      cases l with
      | items before =>
        have := (Node.sequence before).openParts_length_le braces
        simp only [parts, tokens, List.length_append]
        omega
      | entry before key =>
        have := (Node.mapping before).openParts_length_le braces
        simp only [parts, tokens, List.length_append, List.length_cons]
        omega
    simp only [List.reverse_cons, List.flatMap_append, List.flatMap_singleton, List.length_append]
    omega

theorem Spot.parts_length_le (p : Spot) : (p.parts braces).length ≤ (p.tokens braces).length := by
  cases p with
  | node ls => exact Level.parts_length_le braces ls
  | key ls before marked =>
    have := Level.parts_length_le braces ls
    have := (Node.mapping before).openParts_length_le braces
    simp only [parts, tokens, List.length_append]
    omega

/-- The first token of a place is one that a node may begin with, if the scalar is. -/
theorem Level.tokens_open (ls : List Level) {k : Token.Kind} (hk : OpensNode k)
    (ks : List Token.Kind) :
    ∃ k' ks', ls.reverse.flatMap (tokens braces) ++ k :: ks = k' :: ks' ∧ OpensNode k' := by
  induction ls generalizing k ks with
  | nil => exact ⟨k, ks, rfl, hk⟩
  | cons l ls ih =>
    cases l with
    | items before =>
      obtain ⟨k', ks', heq, hk'⟩ := ih (k := .blockSequenceStart) trivial
        (Node.itemTokens braces before ++ [.blockEntry] ++ k :: ks)
      exact ⟨k', ks', by rw [← heq]; simp [tokens, Node.openTokens], hk'⟩
    | entry before key =>
      obtain ⟨k', ks', heq, hk'⟩ := ih (k := .blockMappingStart) trivial
        (Node.entryTokens braces before ++ [.key, scalarKind key.1 key.2, .value] ++ k :: ks)
      exact ⟨k', ks', by rw [← heq]; simp [tokens, Node.openTokens], hk'⟩

theorem Spot.tokens_open (p : Spot) {k : Token.Kind} (hk : OpensNode k) (ks : List Token.Kind) :
    ∃ k' ks', p.tokens braces ++ k :: ks = k' :: ks' ∧ OpensNode k' := by
  cases p with
  | node ls => exact Level.tokens_open braces ls hk ks
  | key ls before marked =>
    obtain ⟨k', ks', heq, hk'⟩ := Level.tokens_open braces ls (k := .blockMappingStart) trivial
      (Node.entryTokens braces before ++ [.key] ++ k :: ks)
    exact ⟨k', ks', by rw [← heq]; simp [tokens, Node.openTokens], hk'⟩

end
end YamlCodec.Writer

namespace YamlCodec.Event.Reader
open YamlCodec.Token YamlCodec.Writer Decode

/-- A reader whose next step reads a node from these tokens. -/
def ReadsNode (r : Reader) (tokens : List Token) (t : Reader) : Prop :=
  ∃ phase p ps indentless, t.step = (r.before tokens phase (p :: ps)).node true indentless

section
variable {braces : Bool} {r t : Reader} {ts us : List Token} {u : Token} {m : Source.Mark}

theorem tells_items {items : List Node} (hts : ts.map Token.kind = Node.itemTokens braces items)
    (hu : u.kind = .blockEntry)
    (ht : ReadsNode r (⟨.blockSequenceStart, m⟩ :: (ts ++ u :: us)) t) :
    ∃ t' phase ps, Tells t ((Node.sequence items).openParts braces) t' ∧
      t'.step = (r.before (u :: us) phase ps).blockSequence := by
  obtain ⟨phase, p, ps, indentless, hstep⟩ := ht
  cases items with
  | nil =>
    obtain rfl := List.map_eq_nil_iff.mp hts
    exact ⟨_, .blockSequence true, p :: ps, .cons hstep rfl (.nil _), rfl⟩
  | cons n items =>
    have hitems := gives_items braces r (n :: items) (List.cons_ne_nil _ _) hts (u :: us)
      (.inr ⟨u, us, rfl, .inl hu⟩) (.blockSequence true) (p :: ps)
    have htells := Gives.tells
      (r := r.before (⟨.blockSequenceStart, m⟩ :: (ts ++ u :: us)) (.blockSequence true) (p :: ps))
      hitems
    exact ⟨_, .blockSequence false, p :: ps, .cons hstep rfl htells, rfl⟩

theorem tells_entries {entries : List (Key × Node)}
    (hts : ts.map Token.kind = Node.entryTokens braces entries) (hu : u.kind = .key)
    (ht : ReadsNode r (⟨.blockMappingStart, m⟩ :: (ts ++ u :: us)) t) :
    ∃ t' phase ps, Tells t ((Node.mapping entries).openParts braces) t' ∧
      t'.step = (r.before (u :: us) phase ps).blockKey := by
  obtain ⟨phase, p, ps, indentless, hstep⟩ := ht
  cases entries with
  | nil =>
    obtain rfl := List.map_eq_nil_iff.mp hts
    exact ⟨_, .blockKey true, p :: ps, .cons hstep rfl (.nil _), rfl⟩
  | cons e entries =>
    have hentries := gives_entries braces r (e :: entries) (List.cons_ne_nil _ _) hts (u :: us)
      (.inr ⟨u, us, rfl, .inl hu⟩) (.blockKey true) (p :: ps)
    have htells := Gives.tells
      (r := r.before (⟨.blockMappingStart, m⟩ :: (ts ++ u :: us)) (.blockKey true) (p :: ps))
      hentries
    exact ⟨_, .blockKey false, p :: ps, .cons hstep rfl htells, rfl⟩

/-- The tokens of open collections are told as their parts, up to the node within the innermost one. -/
theorem tells_levels (ls : List Level)
    (hts : ts.map Token.kind = ls.reverse.flatMap (Level.tokens braces)) (u : Token) (us : List Token)
    (hu : OpensNode u.kind) :
    ∃ t, Tells (r.before (ts ++ u :: us) .node [.documentEnd])
        (ls.reverse.flatMap (Level.parts braces)) t ∧ ReadsNode r (u :: us) t := by
  induction ls generalizing ts u us with
  | nil =>
    obtain rfl := List.map_eq_nil_iff.mp hts
    exact ⟨_, .nil _, .node, .documentEnd, [], false, rfl⟩
  | cons l ls ih =>
    rw [List.reverse_cons, List.flatMap_append, List.flatMap_singleton] at hts ⊢
    obtain ⟨ts, vs, rfl, houter, hvs⟩ := List.map_eq_append_iff.mp hts
    cases l with
    | items before =>
      obtain ⟨m, vs, rfl, hinner⟩ := tokens_head hvs
      obtain ⟨xs, ys, rfl, hxs, hys⟩ := List.map_eq_append_iff.mp hinner
      obtain ⟨m', ys, rfl, hnil⟩ := tokens_head hys
      obtain rfl := List.map_eq_nil_iff.mp hnil
      obtain ⟨t, ht, hreads⟩ := ih houter ⟨.blockSequenceStart, m⟩
        (xs ++ ⟨.blockEntry, m'⟩ :: u :: us) trivial
      obtain ⟨t', phase, ps, ht', hstep⟩ := tells_items hxs rfl hreads
      refine ⟨t', ?_, phase, _, ps, false, hstep.trans (blockSequence_item r us phase ps m' hu)⟩
      have htells := ht.append ht'
      simpa [Level.parts] using htells
    | entry before k =>
      obtain ⟨m, vs, rfl, hinner⟩ := tokens_head hvs
      obtain ⟨xs, ys, rfl, hxs, hys⟩ := List.map_eq_append_iff.mp hinner
      obtain ⟨m₁, ys, rfl, hkey⟩ := tokens_head hys
      obtain ⟨m₂, ys, rfl, hvalue⟩ := tokens_head hkey
      obtain ⟨m₃, ys, rfl, hnil⟩ := tokens_head hvalue
      obtain rfl := List.map_eq_nil_iff.mp hnil
      obtain ⟨t, ht, hreads⟩ := ih houter ⟨.blockMappingStart, m⟩
        (xs ++ ⟨.key, m₁⟩ :: ⟨scalarKind k.1 k.2, m₂⟩ :: ⟨.value, m₃⟩ :: u :: us) trivial
      obtain ⟨t', phase, ps, ht', hstep⟩ := tells_entries hxs rfl hreads
      -- the key is one scalar, after which the phase is that of the value
      have hscalar : Tells t' [.scalar k.1 (k.2.style k.1) none]
          (r.before (⟨.value, m₃⟩ :: u :: us) .blockValue ps) :=
        .cons hstep (congrArg (fun t => some (Part.Kind.scalar t _ none)) String.ofList_toList) (.nil _)
      refine ⟨r.before (⟨.value, m₃⟩ :: u :: us) .blockValue ps, ?_, .blockValue, _, ps, true,
        blockValue_item r us .blockValue ps m₃ hu⟩
      have htells := ht.append (ht'.append hscalar)
      simpa [Level.parts] using htells

theorem tells_spot (p : Spot) (hts : ts.map Token.kind = p.tokens braces) (u : Token)
    (us : List Token) (hu : OpensNode u.kind) :
    ∃ t, Tells (r.before (ts ++ u :: us) .node [.documentEnd]) (p.parts braces) t ∧
      ReadsNode r (u :: us) t := by
  cases p with
  | node ls => exact tells_levels ls hts u us hu
  | key ls before marked =>
    obtain ⟨ts, vs, rfl, houter, hvs⟩ := List.map_eq_append_iff.mp hts
    obtain ⟨m, vs, rfl, hinner⟩ := tokens_head hvs
    obtain ⟨xs, ys, rfl, hxs, hys⟩ := List.map_eq_append_iff.mp hinner
    obtain ⟨m', ys, rfl, hnil⟩ := tokens_head hys
    obtain rfl := List.map_eq_nil_iff.mp hnil
    obtain ⟨t, ht, hreads⟩ := tells_levels (r := r) ls houter ⟨.blockMappingStart, m⟩
      (xs ++ ⟨.key, m'⟩ :: u :: us) trivial
    obtain ⟨t', phase, ps, ht', hstep⟩ := tells_entries hxs rfl hreads
    refine ⟨t', ?_, phase, _, ps, true, hstep.trans (blockKey_item r us phase ps m' hu)⟩
    have htells := ht.append ht'
    simpa [Spot.parts] using htells

end

/-- From tokens that begin with those of a place and a scalar a reader yields the events of the place
and the scalar first. -/
theorem items_spot {braces : Bool} {p : Spot} {text : List Char} {style : Scalar.Style}
    {after : List Token.Kind} {ts : Token.Stream}
    (hts : Token.GivesOut (.streamStart :: (p.tokens braces ++ .scalar text style :: after)) ts)
    {fuel : Nat} (hfuel : (p.parts braces).length + 3 ≤ fuel) :
    ∃ its more, items fuel (start ts) = its ++ more ∧
      its.map Item.event? =
        (Event.streamStart :: .documentStart :: ((p.parts braces).map Part.Kind.event ++
          [.scalar (String.ofList text) style none])).map some := by
  obtain ⟨tokens, failure⟩ := ts
  obtain ⟨more, hts⟩ := hts
  obtain ⟨m, tokens, rfl, htokens⟩ := tokens_head (hts.symm.trans List.cons_append)
  rw [List.append_assoc, List.cons_append] at htokens
  obtain ⟨k, ks, hopen, hk⟩ := p.tokens_open braces (k := .scalar text style) trivial (after ++ more)
  have hfirst := htokens.trans hopen
  obtain ⟨ts, vs, rfl, hspot, hvs⟩ := List.map_eq_append_iff.mp htokens
  obtain ⟨m', us, rfl, _⟩ := tokens_head hvs
  obtain ⟨t, ht, phase, q, qs, indentless, hstep⟩ :=
    tells_spot (r := start ⟨⟨.streamStart, m⟩ :: (ts ++ ⟨.scalar text style, m'⟩ :: us), failure⟩) p
      hspot ⟨.scalar text style, m'⟩ us trivial
  have htells := ht.append (.cons hstep rfl (.nil _))
  obtain ⟨l, ls, hls⟩ := List.exists_cons_of_ne_nil
    (List.append_ne_nil_of_right_ne_nil (p.parts braces)
      (List.cons_ne_nil (Part.Kind.scalar (String.ofList text) style none) []))
  generalize ts ++ ⟨.scalar text style, m'⟩ :: us = tokens at *
  obtain ⟨m'', ws, rfl, _⟩ := tokens_head hfirst
  rw [hls] at htells
  obtain ⟨its, hits, hitems⟩ := items_document hk htells.gives
  obtain ⟨extra, rfl⟩ := Nat.exists_eq_add_of_le hfuel
  rw [← hls, List.length_append, List.length_singleton] at hitems
  refine ⟨its, _, hitems extra, hits.trans ?_⟩
  rw [← hls, List.map_append]
  rfl

end YamlCodec.Event.Reader
