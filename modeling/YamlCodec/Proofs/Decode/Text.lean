import YamlCodec.Proofs.Decode.Load
import YamlCodec.Proofs.Event.Node
import YamlCodec.Proofs.Token.Scan

/-!
# Decoding the text of a node

From the text of a node a reader yields the events of its tree. So where these are within the budget
the text decodes to the value of the tree, and otherwise to a breach.
-/

set_option autoImplicit false

namespace YamlCodec
open YamlCodec.Event YamlCodec.Writer Decode

namespace Event.Reader

/-- The items of a reader that tells parts. -/
theorem Tells.yields {r t : Reader} {ks : List Part.Kind} (h : Tells r ks t) :
    ∃ its : List Item, its.map Item.event? = (ks.map Part.Kind.event).map some ∧
      ∀ fuel, items (ks.length + fuel) r = its ++ items fuel t := by
  induction h with
  | nil r => exact ⟨[], rfl, fun fuel => by rw [List.length_nil, Nat.zero_add]; rfl⟩
  | @cons r t s k ks hs hk _ ih =>
    obtain ⟨its, hits, hitems⟩ := ih
    refine ⟨.event s.event s.mark :: its, ?_, fun fuel => ?_⟩
    · rw [List.map_cons, hits, Item.event?, Part.ofEvent_eq_some hk]
      rfl
    · rw [List.length_cons, Nat.add_right_comm, items_step hs, hitems]
      rfl

/-- From tokens that give parts a reader yields the events of a first document with these parts, and
goes on behind them. -/
theorem items_document {m : Source.Mark} {u : Token} {us : List Token}
    {failure : Option Token.Failure} {ks : List Part.Kind} {t : Reader} (hu : OpensNode u.kind)
    (h : Gives (((start ⟨⟨.streamStart, m⟩ :: u :: us, failure⟩).before (u :: us) .node
      [.documentEnd]).node true false) ks t) :
    ∃ its : List Item,
      its.map Item.event? =
        (Event.streamStart :: .documentStart :: ks.map Part.Kind.event).map some ∧
      ∀ fuel, items (ks.length + 2 + fuel) (start ⟨⟨.streamStart, m⟩ :: u :: us, failure⟩) =
        its ++ items fuel t := by
  generalize hr : start ⟨⟨.streamStart, m⟩ :: u :: us, failure⟩ = r at h ⊢
  have hstart : r.step = .ok ⟨.streamStart, m, r.before (u :: us) (.documentStart true) []⟩ := by
    rw [← hr]
    rfl
  have hdocument := documentStart_bare r us [] hu
  have hhandles : ({ r with handles := [] } : Reader) = r := by
    rw [← hr]
    rfl
  rw [hhandles] at hdocument
  obtain ⟨its, hits, hitems⟩ :=
    (Gives.tells (r := r.before (u :: us) .node [.documentEnd]) h).yields
  refine ⟨.event .streamStart m :: .event .documentStart u.mark :: its, ?_, fun fuel => ?_⟩
  · rw [List.map_cons, List.map_cons, hits]
    rfl
  · rw [Nat.add_right_comm, items_step hstart, items_step hdocument]
    exact congrArg
      (fun its => .event .streamStart m :: .event .documentStart u.mark :: its) (hitems fuel)

/-- From tokens that begin with those of a node a reader yields the events of its tree first. -/
theorem items_node {braces : Bool} {n : Node} (hne : n.tokens braces ≠ []) {ts : Token.Stream}
    {after : List Token.Kind}
    (hts : ts.tokens.map Token.kind = .streamStart :: (n.tokens braces ++ after)) {fuel : Nat}
    (hfuel : (n.tree braces).kinds.length + 2 ≤ fuel) :
    ∃ its more, items fuel (start ts) = its ++ more ∧
      its.map Item.event? = (n.tree braces).streamEvents.map some := by
  obtain ⟨tokens, failure⟩ := ts
  obtain ⟨m, tokens, rfl, hrest⟩ := tokens_head hts
  obtain ⟨extra, rfl⟩ := Nat.exists_eq_add_of_le hfuel
  obtain ⟨ts, us, rfl, hnode, _⟩ := List.map_eq_append_iff.mp hrest
  have hgives := gives_node braces (start ⟨⟨.streamStart, m⟩ :: (ts ++ us), failure⟩) n hne hnode us
    false .node .documentEnd []
  obtain ⟨k, ks, hopens, hk⟩ := (n.tokens_opens braces).resolve_left fun h => hne h.1
  rw [hopens] at hnode
  obtain ⟨m', ts, rfl, _⟩ := tokens_head hnode
  obtain ⟨its, hits, hitems⟩ := items_document (u := ⟨k, m'⟩) hk hgives
  exact ⟨its, _, hitems extra, hits⟩

/-- From the tokens of a stream of one node a reader yields the events of its tree, or an empty stream
if the node has no tokens. -/
theorem items_stream {braces : Bool} {n : Node} {ts : Token.Stream}
    (hts : ts.tokens.map Token.kind = .streamStart :: (n.tokens braces ++ [.streamEnd]))
    {fuel : Nat} (hfuel : (n.tree braces).kinds.length + 2 ≤ fuel) :
    (n.tokens braces = [] ∧ ∃ m m', items fuel (start ts) =
      [.event .streamStart m, .event .streamEnd m']) ∨
    ∃ its more, items fuel (start ts) = its ++ more ∧
      its.map Item.event? = (n.tree braces).streamEvents.map some := by
  by_cases hblank : n.tokens braces = []
  · -- the stream ends where a document would begin
    obtain ⟨_, htree⟩ := (n.tokens_opens braces).resolve_right (by simp [hblank])
    obtain ⟨tokens, failure⟩ := ts
    obtain ⟨m, tokens, rfl, hrest⟩ := tokens_head hts
    obtain ⟨extra, rfl⟩ := Nat.exists_eq_add_of_le hfuel
    rw [hblank] at hrest
    obtain ⟨m', tokens, rfl, hnil⟩ := tokens_head hrest
    obtain rfl := List.map_eq_nil_iff.mp hnil
    refine .inl ⟨hblank, m, m', ?_⟩
    rw [htree, Tree.kinds, Nat.add_comm]
    rfl
  · exact .inr (items_node hblank hts hfuel)

end Event.Reader

/-- What a reader yields from the text of a node. -/
theorem read_text (o : WriterOptions) (n : Node) :
    (n.tokens o.emptyAsBraces = [] ∧ ∃ m m', Event.read (String.ofList (n.text o)) =
      [.event .streamStart m, .event .streamEnd m']) ∨
    ∃ its more, Event.read (String.ofList (n.text o)) = its ++ more ∧
      its.map Item.event? = (n.tree o.emptyAsBraces).streamEvents.map some := by
  obtain ⟨_, hkinds⟩ := Token.scan_text o n
  have hle := Node.kinds_length_le o.emptyAsBraces n
  have hlength := congrArg List.length hkinds
  simp only [List.length_map, List.length_cons, List.length_append, List.length_nil] at hlength
  unfold Event.read
  rw [String.toList_ofList]
  exact Reader.items_stream hkinds (by omega)

theorem Decode.Part.exists_kinds (ks : List Part.Kind) :
    ∃ parts : List Part, parts.map Part.kind = ks :=
  ⟨ks.map fun k => ⟨k, .unknown⟩, by rw [List.map_map]; exact List.map_id ks⟩

theorem Decode.build_whole {t : Tree} {v : Value} (hv : t.value? = some v) (ending : Ending)
    {parts : List Part} (hp : parts.map Part.kind = t.kinds) (rest : List Part) :
    build ending [] (parts ++ rest) = (.ok v, rest) := by
  rcases build_tree ending t [] rfl hp rest with ⟨w, hw, hb⟩ | ⟨hw, _⟩
  · obtain rfl : v = w := Option.some.inj (hv.symm.trans hw)
    exact hb
  · rw [hv] at hw
    simp at hw

namespace Decode

section
variable {t : Tree} {v : Value} (hv : t.value? = some v)
include hv

/-- Parts that a tree does not end with meet the failure that ends them. -/
theorem build_unfinished {parts : List Part} {missing : List Part.Kind}
    (h : parts.map Part.kind ++ missing = t.kinds) (hne : missing ≠ []) (e : Error) :
    (build (.failed e) [] parts).1 = .error e := by
  -- the parts that do not come, at any place
  obtain ⟨more, hmore⟩ := Part.exists_kinds missing
  have hall : (parts ++ more).map Part.kind = t.kinds := by rw [List.map_append, hmore, h]
  have hwhole := build_whole hv (.exhausted .unknown) hall []
  rw [List.append_nil] at hwhole
  refine build_short hwhole ?_ e
  rintro rfl
  exact hne hmore.symm

/-- Items that tell a tree within the budget have its value, whatever comes after them. -/
theorem decodeItems_tree {its : List Item} (hits : its.map Item.event? = t.streamEvents.map some)
    {b : Option Budget} (hfits : (Counts.opened.bear t.load).Fits b) (more : List Item) :
    decodeItems (its ++ more) b = .ok v := by
  rw [← Tree.addAll_streamEvents] at hfits
  obtain ⟨parts, last, hparts, hsupply⟩ := ofItems_run hits hfits .unknown
  rw [Tree.filterMap_streamEvents] at hparts
  rw [decodeItems_eq, hsupply, Supply.value, build_whole hv _ hparts]

/-- A fault before the end of a tree is the outcome. -/
theorem decodeItems_unfinished {its : List Item} {before after : List Event} {e : Event}
    (hes : t.streamEvents = before ++ e :: after)
    (hits : its.map Item.event? = before.map some) (f : Source.Fault) (mark : Source.Mark)
    (more : List Item) :
    decodeItems (its ++ .fault f mark :: more) none = .error (.ofFault f mark) := by
  have hkinds := t.filterMap_streamEvents
  rw [hes, List.filterMap_append] at hkinds
  obtain ⟨parts, last, hparts, hsupply⟩ := ofItems_run (b := none) hits trivial .unknown
  rw [← hparts] at hkinds
  rw [decodeItems_eq, hsupply, Supply.ofItems, List.append_nil]
  exact build_unfinished hv hkinds (Tree.streamEvents_unfinished hes) _

end

end Decode

section
variable (o : WriterOptions) (n : Node) {v : Value} (hv : (n.tree o.emptyAsBraces).value? = some v)
include hv

/-- Where its events are within the budget the text of a node decodes to the value of the tree that is
read there. -/
theorem decode_text_fits {b : Option Budget}
    (hfits : (Counts.opened.bear (n.tree o.emptyAsBraces).load).Fits b) :
    decode (String.ofList (n.text o)) b = .ok v := by
  rcases read_text o n with ⟨hnone, m, m', hread⟩ | ⟨its, more, hread, hits⟩
  · obtain ⟨_, htree⟩ := (n.tokens_opens o.emptyAsBraces).resolve_right (by simp [hnone])
    rw [htree] at hv hfits
    obtain rfl : Value.null = v := Option.some.inj hv
    have hempty : (Counts.zero.addAll [.streamStart, .streamEnd]).Fits b := by
      cases b with
      | none => trivial
      | some b => exact ⟨Nat.le_of_succ_le hfits.events, Nat.zero_le _, Nat.zero_le _, Nat.zero_le _⟩
    have hits : [Item.event .streamStart m, .event .streamEnd m'].map Item.event? =
        [Event.streamStart, .streamEnd].map some := rfl
    obtain ⟨parts, last, hparts, hsupply⟩ := ofItems_run hits hempty .unknown
    obtain rfl := List.map_eq_nil_iff.mp hparts
    rw [decode, hread, decodeItems_eq, ← List.append_nil [_, _], hsupply]
    rfl
  · rw [decode, hread]
    exact decodeItems_tree hv hits hfits more

/-- Where its events are not within the budget the text of a node is not decoded. -/
theorem decode_text_over (hne : n.tokens o.emptyAsBraces ≠ []) {b : Budget}
    (h : ¬ (Counts.opened.bear (n.tree o.emptyAsBraces).load).Within b) :
    OverBudget (decode (String.ofList (n.text o)) (some b)) := by
  obtain ⟨its, more, hread, hits⟩ := (read_text o n).resolve_left fun h => hne h.1
  generalize n.tree o.emptyAsBraces = t at hv hits h
  rw [← t.addAll_streamEvents] at h
  obtain ⟨before, e, after, hes, hbefore, he⟩ :=
    Counts.first_breach (b := some b) (Counts.zero_fits _) h
  have hkinds := t.filterMap_streamEvents
  rw [hes, List.filterMap_append] at hkinds
  rw [hes, List.map_append, List.map_cons] at hits
  obtain ⟨its, items, rfl, hrun, hitems⟩ := List.map_eq_append_iff.mp hits
  obtain ⟨item, items, rfl, hitem, -⟩ := List.map_eq_cons_iff.mp hitems
  obtain ⟨parts, last, hparts, hsupply⟩ := ofItems_run hrun hbefore .unknown
  cases item with
  | fault f mark => simp [Item.event?] at hitem
  | event e' mark =>
    obtain rfl : e' = e := Option.some.inj hitem
    obtain ⟨x, hx⟩ := ofItems_breach hbefore he last mark (items ++ more)
    refine ⟨x, .ofMark mark, ?_⟩
    rw [← hparts] at hkinds
    rw [decode, hread, decodeItems_eq, List.append_assoc, List.cons_append, hsupply, hx,
      List.append_nil]
    exact build_unfinished hv hkinds (Tree.streamEvents_unfinished hes) _

/-- Without a budget there is nothing to break. -/
theorem decode_text : decode (String.ofList (n.text o)) none = .ok v := decode_text_fits o n hv trivial

end

end YamlCodec
