import YamlCodec.Proofs.Value.Written
import YamlCodec.Proofs.Writer.Column

/-!
# The columns of a value

The column of a collection is that of the collection around it, two further on in a sequence and one step
further on in a mapping. Encoding a value computes these columns in order, up to its end or to where it
fails. As long as words hold all of them, columns in words make no difference.
-/

set_option autoImplicit false

namespace YamlCodec
open Writer Writer.State

/-- The events of a walk before a collection that is too deep. -/
def told : List Cue → List Writer.Event
  | [] => []
  | .tooDeep _ :: _ => []
  | .event e :: rest => e :: told rest

/-- The columns computed along cues, up to the first failure. -/
def columns (o : WriterOptions) (s : Session) (cues : List Cue) : List Nat := s.columns o (told cues)

theorem columns_event (o : WriterOptions) (s : Session) (e : Writer.Event) (rest : List Cue) :
    columns o s (.event e :: rest) =
      (s.state.opened? o e).toList ++
        match s.feed o e with
        | (t, none) => columns o t rest
        | (_, some _) => [] := rfl

/-- The columns computed while a value is encoded. -/
def encodeColumns (sink : Sink) (v : Value) (o : WriterOptions) : List Nat :=
  if o.indentStep = 0 then [] else columns o (.start sink) (v.documentCues o.maxDepth)

/-! ## The room of the sink -/

/-- No column is further ahead of the characters that fit than the step, or than three. -/
theorem columns_le (o : WriterOptions) {s : Session} {count n : Nat} (hroom : s.sink.room = some n)
    (hcovered : s.state.Covered (max 1 o.indentStep) count) (cues : List Cue) :
    ∀ c ∈ columns o s cues, c ≤ count + n + max 3 o.indentStep := by
  induction cues generalizing s count n with
  | nil => exact nofun
  | cons cue cues ih =>
    cases cue with
    | tooDeep depth => exact nofun
    | event e =>
      intro c hc
      rw [columns_event, List.mem_append, Option.mem_toList] at hc
      rcases hc with hc | hc
      · obtain ⟨-, l, hp⟩ := opened?_eq_some hc
        have hle := hcovered.place_le hp
        omega
      · split at hc
        · rename_i t hfeed
          obtain ⟨hfits, hroom'⟩ := Session.feed_room hfeed hroom
          have hle := ih hroom' (hcovered.after (Session.feed_after hfeed)) c hc
          omega
        · cases hc

/-! ## Words -/

/-- As long as words hold the columns, cues are followed in words as they are without a bound. -/
theorem follow_unbounded {o : WriterOptions} {s : Session} {cues : List Cue}
    (h : ∀ c ∈ columns o.unbounded s cues, o.Holds c) : follow o s cues = follow o.unbounded s cues := by
  induction cues generalizing s with
  | nil => rfl
  | cons cue cues ih =>
    cases cue with
    | tooDeep depth => rfl
    | event e =>
      rw [columns_event, List.forall_mem_append] at h
      obtain ⟨hfirst, hrest⟩ := h
      rw [follow, follow, Session.feed_unbounded fun c hc => hfirst c (Option.mem_toList.mpr hc)]
      split
      · rename_i t hfeed
        rw [hfeed] at hrest
        exact ih hrest
      · rfl

theorem encodeInto_unbounded {sink : Sink} {v : Value} {o : WriterOptions}
    (h : ∀ c ∈ encodeColumns sink v o.unbounded, o.Holds c) :
    encodeInto sink v o = encodeInto sink v o.unbounded := by
  rw [encodeColumns, WriterOptions.unbounded_indentStep] at h
  rw [encodeInto, encodeInto, WriterOptions.unbounded_indentStep]
  by_cases hstep : o.indentStep = 0
  · rw [if_pos hstep, if_pos hstep]
  · rw [if_neg hstep, WriterOptions.unbounded_maxDepth] at h
    rw [if_neg hstep, if_neg hstep, WriterOptions.unbounded_maxDepth, follow_unbounded h]

/-! ## The layout -/

namespace Value

mutual

/-- The columns of the collections of a value, in order, which stands at a column inside `depth`
collections, of which `limit` are allowed. -/
def openings (step limit depth column : Nat) : Value → List Nat
  | array items =>
    if limit < depth + 1 then []
    else column :: itemOpenings step limit (depth + 1) (column + 2) items
  | object entries =>
    if limit < depth + 1 then []
    else column :: entryOpenings step limit (depth + 1) (column + step) entries
  | _ => []

def itemOpenings (step limit depth column : Nat) : List Value → List Nat
  | [] => []
  | v :: rest => openings step limit depth column v ++ itemOpenings step limit depth column rest

def entryOpenings (step limit depth column : Nat) : List (String × Value) → List Nat
  | [] => []
  | (_, v) :: rest => openings step limit depth column v ++ entryOpenings step limit depth column rest

end

mutual

/-- Every level of nesting, of those that are reached, adds two columns or the step. -/
theorem openings_le (v : Value) {step limit depth column bound : Nat} (hdepth : depth ≤ bound)
    (hbound : min limit (depth + v.depth) ≤ bound) (hcolumn : column ≤ depth * max 2 step) :
    ∀ c ∈ v.openings step limit depth column, c ≤ bound * max 2 step := by
  match v with
  | array items =>
    rw [openings]
    rw [Value.depth] at hbound
    split
    · exact nofun
    · refine List.forall_mem_cons.mpr ⟨Nat.le_trans hcolumn (Nat.mul_le_mul_right _ hdepth), ?_⟩
      exact itemOpenings_le items (by omega) (by omega) (by rw [Nat.add_one_mul]; omega)
  | object entries =>
    rw [openings]
    rw [Value.depth] at hbound
    split
    · exact nofun
    · refine List.forall_mem_cons.mpr ⟨Nat.le_trans hcolumn (Nat.mul_le_mul_right _ hdepth), ?_⟩
      exact entryOpenings_le entries (by omega) (by omega) (by rw [Nat.add_one_mul]; omega)
  | null | bool _ | integer _ | double _ | string _ => exact nofun

theorem itemOpenings_le (items : List Value) {step limit depth column bound : Nat}
    (hdepth : depth ≤ bound) (hbound : min limit (depth + itemDepth items) ≤ bound)
    (hcolumn : column ≤ depth * max 2 step) :
    ∀ c ∈ itemOpenings step limit depth column items, c ≤ bound * max 2 step := by
  match items with
  | [] => exact nofun
  | v :: rest =>
    rw [itemDepth] at hbound
    have hitem : min limit (depth + v.depth) ≤ bound := by omega
    have hrest : min limit (depth + itemDepth rest) ≤ bound := by omega
    exact List.forall_mem_append.mpr
      ⟨openings_le v hdepth hitem hcolumn, itemOpenings_le rest hdepth hrest hcolumn⟩

theorem entryOpenings_le (entries : List (String × Value)) {step limit depth column bound : Nat}
    (hdepth : depth ≤ bound) (hbound : min limit (depth + entryDepth entries) ≤ bound)
    (hcolumn : column ≤ depth * max 2 step) :
    ∀ c ∈ entryOpenings step limit depth column entries, c ≤ bound * max 2 step := by
  match entries with
  | [] => exact nofun
  | (_, v) :: rest =>
    rw [entryDepth] at hbound
    have hvalue : min limit (depth + v.depth) ≤ bound := by omega
    have hrest : min limit (depth + entryDepth rest) ≤ bound := by omega
    exact List.forall_mem_append.mpr
      ⟨openings_le v hdepth hvalue hcolumn, entryOpenings_le rest hdepth hrest hcolumn⟩

end

end Value

/-! ## The run -/

/-- Following cues from a state computes these columns and comes to another state, whatever comes then; or
it ends before that, with the first of these columns, but in a sink without a limit only if the nesting is
too deep. -/
def Opens (o : WriterOptions) (deep : Prop) (s : State) (cues : List Cue) (cs : List Nat) (t : State) :
    Prop :=
  ∀ (sink : Sink) (rest : List Cue),
    (∃ sink' : Sink, sink'.room.isSome = sink.room.isSome ∧
      columns o ⟨s, sink⟩ (cues ++ rest) = cs ++ columns o ⟨t, sink'⟩ rest) ∨
    ((sink.room.isSome = true ∨ deep) ∧ columns o ⟨s, sink⟩ (cues ++ rest) <+: cs)

namespace Opens
variable {o : WriterOptions} {deep : Prop} {s t u : State}

theorem nil (s : State) : Opens o deep s [] [] s := fun sink _ => .inl ⟨sink, rfl, rfl⟩

theorem tooDeep (h : deep) (depth : Nat) (t : State) : Opens o deep s [.tooDeep depth] [] t :=
  fun _ _ => .inr ⟨.inr h, List.prefix_rfl⟩

theorem event {e : Writer.Event} (h : s.after? o e = some t) :
    Opens o deep s [.event e] (s.opened? o e).toList t := by
  intro sink rest
  rcases Session.feed_goes h sink with ⟨sink', hroom, hfeed⟩ | ⟨hroom, u, hfeed⟩
  · exact .inl ⟨sink', hroom, by rw [List.singleton_append, columns_event, hfeed]⟩
  · exact .inr ⟨.inl hroom, by rw [List.singleton_append, columns_event, hfeed]; simp⟩

theorem append {as bs : List Cue} {cs ds : List Nat} (ha : Opens o deep s as cs t)
    (hb : Opens o deep t bs ds u) : Opens o deep s (as ++ bs) (cs ++ ds) u := by
  intro sink rest
  rw [List.append_assoc]
  rcases ha sink (bs ++ rest) with ⟨sink', hroom, hcolumns⟩ | ⟨hends, hcolumns⟩
  · rw [hcolumns]
    rcases hb sink' rest with ⟨sink'', hroom', hcolumns'⟩ | ⟨hends, hcolumns'⟩
    · exact .inl ⟨sink'', hroom'.trans hroom, by rw [hcolumns', List.append_assoc]⟩
    · refine .inr ⟨?_, (List.prefix_append_right_inj cs).mpr hcolumns'⟩
      rwa [hroom] at hends
  · exact .inr ⟨hends, hcolumns.trans (List.prefix_append cs ds)⟩

theorem congr {as bs : List Cue} {cs ds : List Nat} (h : Opens o deep s as cs t) (ha : as = bs)
    (hc : cs = ds) (ht : t = u) : Opens o deep s bs ds u := by
  subst ha hc ht
  exact h

end Opens

namespace Value

section
variable (o : WriterOptions)

/-- A leaf opens nothing. -/
theorem opens_leaf {deep : Prop} {s : State} (hs : s.stage = .document false) (hk : TakesNode s.kinds)
    (text : String) (p : Presentation) :
    Opens o.unbounded deep s [.event (.scalar text p)] [] s.beginEntry.2.endNode := by
  refine (Opens.event (after_scalar o.unbounded hs hk text p)).congr rfl ?_ rfl
  rw [opened?, hs]
  rfl

/-- A collection opens its own column and then those of what stands in it. -/
theorem opens_collection {deep : Prop} {s : State} (hs : s.stage = .document false) {e e' : Writer.Event}
    {k : Kind} (he : started? e = some k) (he' : ended? e' = some k) {c n : Nat} {l : Lead}
    (hp : s.place? o.unbounded = some (c, l)) {cues : List Cue} {cs : List Nat}
    (h : Opens o.unbounded deep ⟨.document false, ⟨k, c, l, 0⟩ :: s.beginEntry.2.stack⟩ cues cs
      ⟨.document false, ⟨k, c, l, n⟩ :: s.beginEntry.2.stack⟩) :
    Opens o.unbounded deep s (.event e :: (cues ++ [.event e'])) (c :: cs) s.beginEntry.2.endNode := by
  have hbegin : (⟨.document false, s.beginEntry.2.stack⟩ : State) = s.beginEntry.2 := by
    rw [← hs, ← beginEntry_stage s]
  have hstart := after_start_at o.unbounded hs he hp
  have hend := after_end o.unbounded he' c l n s.beginEntry.2.stack
  refine ((Opens.event hstart).append (h.append (.event hend))).congr rfl ?_ (congrArg endNode hbegin)
  rw [opened?_start hs he hp, opened?_end o.unbounded _ he']
  simp

mutual

theorem opens_value (v : Value) {limit depth : Nat} {deep : Prop} (hdeep : limit < depth + v.depth → deep)
    {s : State} (hs : s.stage = .document false) {c : Nat} {l : Lead}
    (hp : s.place? o.unbounded = some (c, l)) :
    Opens o.unbounded deep s (v.cues limit depth) (v.openings (max 1 o.indentStep) limit depth c)
      s.beginEntry.2.endNode := by
  have hk := takesNode_of_place hp
  match v with
  | array items =>
    rw [Value.depth] at hdeep
    rw [cues, openings]
    split
    · exact .tooDeep (hdeep (by omega)) _ _
    · exact opens_collection o hs rfl rfl hp (opens_items items (fun h => hdeep (by omega)) c l 0 _)
  | object entries =>
    rw [Value.depth] at hdeep
    rw [cues, openings]
    split
    · exact .tooDeep (hdeep (by omega)) _ _
    · exact opens_collection o hs rfl rfl hp (opens_entries entries (fun h => hdeep (by omega)) c l 0 _)
  | null | bool true | bool false | integer _ | double _ | string _ => exact opens_leaf o hs hk _ _

theorem opens_items (items : List Value) {limit depth : Nat} {deep : Prop}
    (hdeep : limit < depth + itemDepth items → deep) (c : Nat) (l : Lead) (k : Nat) (fs : List Frame) :
    Opens o.unbounded deep ⟨.document false, ⟨.sequence, c, l, k⟩ :: fs⟩ (itemCues limit depth items)
      (itemOpenings (max 1 o.indentStep) limit depth (c + 2) items)
      ⟨.document false, ⟨.sequence, c, l, k + items.length⟩ :: fs⟩ := by
  match items with
  | [] => exact .nil _
  | v :: items =>
    rw [itemDepth] at hdeep
    have hitem := opens_value v (fun h : limit < depth + v.depth => hdeep (by omega))
      (s := ⟨.document false, ⟨.sequence, c, l, k⟩ :: fs⟩) rfl rfl
    refine (hitem.append (opens_items items (fun h => hdeep (by omega)) c l (k + 1) fs)).congr rfl rfl ?_
    simp [Nat.add_comm, Nat.add_left_comm]

theorem opens_entries (entries : List (String × Value)) {limit depth : Nat} {deep : Prop}
    (hdeep : limit < depth + entryDepth entries → deep) (c : Nat) (l : Lead) (k : Nat) (fs : List Frame) :
    Opens o.unbounded deep ⟨.document false, ⟨.mapping false, c, l, k⟩ :: fs⟩ (entryCues limit depth entries)
      (entryOpenings (max 1 o.indentStep) limit depth (c + max 1 o.indentStep) entries)
      ⟨.document false, ⟨.mapping false, c, l, k + entries.length⟩ :: fs⟩ := by
  match entries with
  | [] => exact .nil _
  | (key, v) :: entries =>
    rw [entryDepth] at hdeep
    have hkey := after_key o.unbounded c l k fs key .any
    have hvalue := opens_value v (fun h : limit < depth + v.depth => hdeep (by omega))
      (s := ⟨.document false, ⟨.mapping true, c, l, k + 1⟩ :: fs⟩) rfl rfl
    refine ((Opens.event hkey).append
      (hvalue.append (opens_entries entries (fun h => hdeep (by omega)) c l (k + 1) fs))).congr rfl rfl ?_
    simp [Nat.add_comm, Nat.add_left_comm]

end

/-- A document opens the collections of its value. -/
theorem opens_document (v : Value) (limit : Nat) :
    Opens o.unbounded (limit < v.depth) .start (v.documentCues limit) (v.openings (max 1 o.indentStep) limit 0 0)
      ⟨.finished, []⟩ := by
  have hstream : after? o.unbounded .start .streamStart = some ⟨.stream, []⟩ := rfl
  have hdocument : after? o.unbounded ⟨.stream, []⟩ .documentStart = some ⟨.document false, []⟩ := rfl
  have hdone : after? o.unbounded ⟨.document true, []⟩ .documentEnd = some ⟨.stream, []⟩ := rfl
  have hend : after? o.unbounded ⟨.stream, []⟩ .streamEnd = some ⟨.finished, []⟩ := rfl
  have hdeep : limit < 0 + v.depth → limit < v.depth := by omega
  have hvalue := opens_value o v hdeep (s := ⟨.document false, []⟩) rfl rfl
  refine ((Opens.event hstream).append ((Opens.event hdocument).append
    (hvalue.append ((Opens.event hdone).append (.event hend))))).congr rfl ?_ rfl
  simp [opened?, started?, State.start]

end

end Value

/-! ## The encoding -/

/-- The whole layout is computed, or a beginning of it where the encoding fails. -/
theorem encodeColumns_layout (sink : Sink) (v : Value) {o : WriterOptions} (hstep : o.indentStep ≠ 0) :
    encodeColumns sink v o.unbounded = v.openings o.indentStep o.maxDepth 0 0 ∨
      (sink.room.isSome = true ∨ o.maxDepth < v.depth) ∧
        encodeColumns sink v o.unbounded <+: v.openings o.indentStep o.maxDepth 0 0 := by
  have hmax : max 1 o.indentStep = o.indentStep := by omega
  have hopens := Value.opens_document o v o.maxDepth sink []
  rw [List.append_nil, hmax] at hopens
  rw [encodeColumns, WriterOptions.unbounded_indentStep, if_neg hstep]
  rcases hopens with ⟨sink', -, hall⟩ | hends
  · exact .inl (hall.trans (List.append_nil _))
  · exact .inr hends

theorem encodeColumns_of_layout (sink : Sink) (v : Value) (o : WriterOptions) :
    encodeColumns sink v o.unbounded <+: v.openings o.indentStep o.maxDepth 0 0 := by
  by_cases hstep : o.indentStep = 0
  · rw [encodeColumns, WriterOptions.unbounded_indentStep, if_pos hstep]
    exact List.nil_prefix
  · rcases encodeColumns_layout sink v hstep with hall | ⟨-, hends⟩
    · exact hall ▸ List.prefix_rfl
    · exact hends

theorem encodeColumns_le {sink : Sink} {n : Nat} (hroom : sink.room = some n) (v : Value)
    (o : WriterOptions) : ∀ c ∈ encodeColumns sink v o, c ≤ n + max 3 o.indentStep := by
  intro c hc
  rw [encodeColumns] at hc
  split at hc
  · cases hc
  · have hcovered : (Session.start sink).state.Covered (max 1 o.indentStep) 0 := nofun
    have hle := columns_le o hroom hcovered _ c hc
    omega

/-- Where words hold the columns of the layout, a value is encoded as it is without a bound. -/
theorem encodeInto_of_layout {v : Value} {o : WriterOptions}
    (h : ∀ c ∈ v.openings o.indentStep o.maxDepth 0 0, o.Holds c) (sink : Sink) :
    encodeInto sink v o = encodeInto sink v o.unbounded :=
  encodeInto_unbounded fun c hc => h c ((encodeColumns_of_layout sink v o).subset hc)

/-- Words hold the layout if they hold the product of the step and the depth that is reached. -/
theorem layout_holds {v : Value} {o : WriterOptions}
    (h : o.Holds (min o.maxDepth v.depth * max 2 o.indentStep)) :
    ∀ c ∈ v.openings o.indentStep o.maxDepth 0 0, o.Holds c := by
  intro c hc
  have hbound : min o.maxDepth (0 + v.depth) ≤ min o.maxDepth v.depth := by omega
  exact h.of_le (v.openings_le (Nat.zero_le _) hbound (Nat.zero_le _) c hc)

theorem encode_of_layout {v : Value} {o : WriterOptions}
    (h : ∀ c ∈ v.openings o.indentStep o.maxDepth 0 0, o.Holds c) : encode v o = encode v o.unbounded := by
  rw [encode, encode, encodeInto_of_layout h]

/-- A value that does not nest too deep is written in the layout of its node, if words hold the columns
of the layout. -/
theorem Value.encode_eq_of_layout (v : Value) (o : WriterOptions) (hs : 1 ≤ o.indentStep)
    (hd : v.depth ≤ o.maxDepth) (hw : ∀ c ∈ v.openings o.indentStep o.maxDepth 0 0, o.Holds c) :
    encode v o = .ok (String.ofList (v.node.text o)) :=
  (encode_of_layout hw).trans (v.encode_eq o hs hd)

/-- An encoding computes the columns of the layout: all of them, or those up to where it fails. Behind the
first characters that fit, no column is further ahead than the step, or than three. As long as words hold
the columns, keeping them in words makes no difference; they do where they hold the product of the step and
the depth that is reached. -/
theorem encoding_in_words (sink : Sink) (v : Value) (o : WriterOptions) :
    (encodeColumns sink v o.unbounded <+: v.openings o.indentStep o.maxDepth 0 0) ∧
    (sink.room = none → o.indentStep ≠ 0 → v.depth ≤ o.maxDepth →
      encodeColumns sink v o.unbounded = v.openings o.indentStep o.maxDepth 0 0) ∧
    (∀ n, sink.room = some n → ∀ c ∈ encodeColumns sink v o.unbounded, c ≤ n + max 3 o.indentStep) ∧
    ((∀ c ∈ encodeColumns sink v o.unbounded, o.Holds c) →
      encodeInto sink v o = encodeInto sink v o.unbounded) ∧
    (o.Holds (min o.maxDepth v.depth * max 2 o.indentStep) →
      encodeInto sink v o = encodeInto sink v o.unbounded) := by
  refine ⟨encodeColumns_of_layout sink v o, fun hroom hstep hdepth => ?_,
    fun n hroom => encodeColumns_le hroom v o.unbounded, encodeInto_unbounded,
    fun hproduct => encodeInto_of_layout (layout_holds hproduct) sink⟩
  rcases encodeColumns_layout sink v hstep with hall | ⟨hlimited | hdeep, -⟩
  · exact hall
  · rw [hroom] at hlimited
    cases hlimited
  · omega

/-- Three columns, the last of which no word holds: the word starts again from one, and what should fail
for want of room is written with the items of the list in front of their key. -/
theorem column_past_words :
    let v : Value := .array [.object [("a", .array [.null])]]
    let o : WriterOptions := { indentStep := 0x10000000000000000 - 1 }
    encodeColumns (.limited 20) v o.unbounded = [0, 2, 0x10000000000000000 + 1] ∧
    encodeInto (.limited 20) v o = (⟨"- a:\n - null\n", some 7⟩, none) ∧
    encodeInto (.limited 20) v o.unbounded =
      (⟨"- a:\n" ++ "               ", some 0⟩, some .sinkFull) := by
  refine ⟨?_, ?_, ?_⟩ <;> rfl

end YamlCodec
