import YamlCodec.Writer.Session

/-!
# The script of an event

What an event writes and which states it settles in between depends on the state alone, and whether the
sink gives out makes a difference only to how far this goes. So an event is refused before anything has
been done, or it performs the actions of a list one after the other, up to a write that fails.
-/

set_option autoImplicit false

namespace YamlCodec.Writer

inductive Action where
  | write (c : Chunk)
  | settle (s : State)

/-- The state that actions leave behind. -/
def settled (s : State) : List Action → State
  | [] => s
  | .settle t :: rest => settled t rest
  | .write _ :: rest => settled s rest

theorem settled_append (s : State) (as bs : List Action) :
    settled s (as ++ bs) = settled (settled s as) bs := by
  induction as generalizing s with
  | nil => rfl
  | cons a as ih =>
    cases a with
    | write c => exact ih s
    | settle t => exact ih t

/-- Actions that settle nothing. -/
def WriteOnly (as : List Action) : Prop := ∀ t, .settle t ∉ as

theorem WriteOnly.settled {as : List Action} (h : WriteOnly as) (s : State) : settled s as = s := by
  induction as with
  | nil => rfl
  | cons a as ih =>
    cases a with
    | write c => exact ih fun t ht => h t (List.mem_cons_of_mem _ ht)
    | settle t => exact absurd List.mem_cons_self (h t)

namespace Session

/-- Performs actions; the flag tells that the sink took all of them. -/
def perform (s : Session) : List Action → Session × Bool
  | [] => (s, true)
  | .settle t :: rest => perform { s with state := t } rest
  | .write c :: rest =>
    match s.sink.accept c with
    | (sink, true) => perform { s with sink } rest
    | (sink, false) => ({ s with sink }, false)

theorem perform_append (s : Session) (as bs : List Action) :
    s.perform (as ++ bs) =
      match s.perform as with
      | (t, true) => t.perform bs
      | (t, false) => (t, false) := by
  induction as generalizing s with
  | nil => rfl
  | cons a as ih =>
    cases a with
    | settle t => exact ih _
    | write c =>
      rw [List.cons_append, perform, perform]
      rcases s.sink.accept c with ⟨sink, _ | _⟩
      · rfl
      · exact ih _

theorem perform_settled {s : State} {sink : Sink} {t : Session} {as : List Action}
    (h : perform ⟨s, sink⟩ as = (t, true)) : t.state = settled s as := by
  induction as generalizing s sink with
  | nil => exact congrArg Session.state (Prod.mk.inj h).1.symm
  | cons a as ih =>
    cases a with
    | settle u => exact ih h
    | write c =>
      rw [perform] at h
      split at h
      · exact ih h
      · simp at h

end Session

/-! ## Programs and their actions -/

def outcome : Session × Bool → EStateM.Result Error Session Unit
  | (s, true) => .ok () s
  | (s, false) => .error .sinkFull s

/-- From a state a program performs these actions, whatever the sink is. -/
def Does (x : Emit Unit) (s : State) (as : List Action) : Prop :=
  ∀ sink, x ⟨s, sink⟩ = outcome (Session.perform ⟨s, sink⟩ as)

namespace Does
variable {x y : Emit Unit} {s t : State} {as bs : List Action}

theorem nothing (s : State) : Does (pure ()) s [] := fun _ => rfl

theorem change (f : State → State) (s : State) : Does (Emit.change f) s [.settle (f s)] := fun _ => rfl

theorem write (c : Chunk) (s : State) : Does (Emit.write c) s [.write c] := by
  intro sink
  rw [Session.perform]
  show (do
    set (Session.mk s (sink.accept c).1)
    if (sink.accept c).2 then pure () else throw Error.sinkFull : Emit Unit) ⟨s, sink⟩ = _
  rcases sink.accept c with ⟨sink', _ | _⟩ <;> rfl

theorem seq (hx : Does x s as) (ht : settled s as = t) (hy : Does y t bs) :
    Does (do x; y) s (as ++ bs) := by
  intro sink
  show EStateM.bind x (fun _ => y) ⟨s, sink⟩ = _
  rw [EStateM.bind, hx sink, Session.perform_append]
  rcases hp : Session.perform ⟨s, sink⟩ as with ⟨⟨state, sink'⟩, _ | _⟩
  · rfl
  · obtain rfl : state = t := (Session.perform_settled hp).trans ht
    exact hy sink'

theorem when {p : Prop} [Decidable p] (hx : Does x s as) :
    Does (Emit.when p x) s (if p then as else []) := by
  unfold Emit.when
  split
  · exact hx
  · exact nothing s

theorem current {f : State → Emit Unit} (h : Does (f s) s as) :
    Does (do let s ← Emit.current; f s) s as := h

end Does

/-- From a state a program refuses at once, or performs the actions of a list. -/
def Follows (x : Emit Unit) (s : State) : Except Refusal (List Action) → Prop
  | .error r => ∀ sink, x ⟨s, sink⟩ = .error (.refused r) ⟨s, sink⟩
  | .ok as => Does x s as

/-! ## The actions of an event -/

def space : Action := .write (.text [' '])

def newline : Action := .write (.text ['\n'])

/-- Moves to where the next entry of a collection begins. -/
def entryStart (f : Frame) : List Action :=
  if f.length = 0 then
    match f.lead with
    | .inline => [space]
    | .newline => [newline, .write (.blanks f.column)]
    | .lineStart => [.write (.blanks f.column)]
  else [.write (.blanks f.column)]

/-- The text of a key, with the mark of an explicit one if it is long. -/
def keyActions (column : Nat) (key : List Char) : List Action :=
  if maxImplicitKey < key.length then
    [.write (.text ['?', ' ']), .write (.text key), newline, .write (.blanks column)]
  else [.write (.text key)]

/-- The brackets of an empty collection. -/
def emptyActions (o : WriterOptions) (lead : Lead) (brackets : List Char) : List Action :=
  (if lead ≠ .lineStart then [space] else []) ++
    ((if o.emptyAsBraces = true then [.write (.text brackets)] else []) ++ [newline])

namespace State

/-- Begins an entry of a sequence for the node that comes, with the state after that. -/
def beginEntry (s : State) : List Action × State :=
  match s.stack with
  | ⟨.sequence, column, lead, length⟩ :: fs =>
    let t := { s with stack := ⟨.sequence, column, lead, length + 1⟩ :: fs }
    (entryStart ⟨.sequence, column, lead, length⟩ ++ [.write (.text ['-']), .settle t], t)
  | _ => ([], s)

def writeKey (s : State) (key : List Char) : Except Refusal (List Action) :=
  match s.stack with
  | [] => .error .keyOutsideMapping
  | f :: fs =>
    let t := { s with stack := { f with kind := .mapping true, length := f.length + 1 } :: fs }
    .ok (entryStart f ++ (keyActions f.column key ++ [.write (.text [':']), .settle t]))

def writeScalar (s : State) (text : List Char) : List Action :=
  s.beginEntry.1 ++ ((if s.slot ≠ .root then [space] else []) ++
    [.write (.text text), newline, .settle s.beginEntry.2.endNode])

/-- Column and lead of a collection that begins here; none where a key has to come. -/
def place? (o : WriterOptions) (s : State) : Option (Nat × Lead) :=
  match s.slot with
  | .root => some (0, .lineStart)
  | .item dash => some (o.column (dash + 2), .inline)
  | .value key => some (o.column (key + max 1 o.indentStep), .newline)
  | .key => none

def openCollection (o : WriterOptions) (kind : Kind) (s : State) : Except Refusal (List Action) :=
  match s.place? o with
  | none => .error .keyNotScalar
  | some (column, lead) =>
    let t := s.beginEntry.2
    .ok (s.beginEntry.1 ++ [.settle { t with stack := ⟨kind, column, lead, 0⟩ :: t.stack }])

def closeCollection (o : WriterOptions) (brackets : List Char) (s : State) :
    Except Refusal (List Action) :=
  match s.stack with
  | [] => .error .noOpenCollection
  | f :: fs =>
    let t := { s with stack := fs }
    .ok (.settle t ::
      ((if f.length = 0 then emptyActions o f.lead brackets else []) ++ [.settle t.endNode]))

def nodeActions (o : WriterOptions) (s : State) (e : Event) : Except Refusal (List Action) :=
  match e with
  | .scalar text p =>
    match s.slot with
    | .key => s.writeKey (render text p)
    | _ => .ok (s.writeScalar (render text p))
  | .sequenceStart => s.openCollection o .sequence
  | .mappingStart => s.openCollection o (.mapping false)
  | .sequenceEnd =>
    match s.stack with
    | ⟨.sequence, _, _, _⟩ :: _ => s.closeCollection o ['[', ']']
    | _ => .error .sequenceEndUnmatched
  | .mappingEnd =>
    match s.stack with
    | ⟨.mapping false, _, _, _⟩ :: _ => s.closeCollection o ['{', '}']
    | ⟨.mapping true, _, _, _⟩ :: _ => .error .valueMissing
    | _ => .error .mappingEndUnmatched
  | _ => .error .nodeExpected

/-- What an event does in a state, unless it is refused. -/
def actions (o : WriterOptions) (s : State) (e : Event) : Except Refusal (List Action) :=
  match s.stage, e with
  | .initial, .streamStart => .ok [.settle { s with stage := .stream }]
  | .initial, _ => .error .streamStartExpected
  | .stream, .documentStart => .ok [.settle { s with stage := .document false }]
  | .stream, .streamEnd => .ok [.settle { s with stage := .finished }]
  | .stream, _ => .error .documentOrEndExpected
  | .document true, .documentEnd => .ok [.settle { s with stage := .stream }]
  | .document true, _ => .error .documentEndExpected
  | .document false, .documentEnd =>
    .error (if s.stack.isEmpty then .documentEmpty else .collectionsOpen)
  | .document false, e => s.nodeActions o e
  | .finished, _ => .error .afterStreamEnd

end State

/-! ## Events follow their scripts -/

theorem writeOnly_entryStart (f : Frame) : WriteOnly (entryStart f) := by
  intro t
  unfold entryStart
  split
  · cases f.lead <;> simp [space, newline]
  · simp

theorem writeOnly_keyActions (column : Nat) (key : List Char) : WriteOnly (keyActions column key) := by
  intro t
  unfold keyActions
  split <;> simp [newline]

theorem writeOnly_emptyActions (o : WriterOptions) (lead : Lead) (brackets : List Char) :
    WriteOnly (emptyActions o lead brackets) := by
  intro t
  unfold emptyActions
  split <;> split <;> simp [space, newline]

theorem does_entryStart (f : Frame) (s : State) : Does (Emit.entryStart f) s (entryStart f) := by
  obtain ⟨kind, column, lead, length⟩ := f
  cases length with
  | zero =>
    cases lead with
    | lineStart => exact .write _ s
    | inline => exact .write _ s
    | newline => exact .seq (.write _ s) rfl (.write _ s)
  | succ length => exact .write _ s

theorem does_keyText (column : Nat) (key : List Char) (s : State) :
    Does (Emit.keyText column key) s (keyActions column key) := by
  unfold Emit.keyText keyActions
  split
  · exact .seq (.write _ s) rfl (.seq (.write _ s) rfl (.seq (.write _ s) rfl (.write _ s)))
  · exact .write _ s

theorem does_writeEmpty (o : WriterOptions) (lead : Lead) (brackets : List Char) (s : State) :
    Does (Emit.writeEmpty o lead brackets) s (emptyActions o lead brackets) := by
  have hspace : Does (Emit.when (lead ≠ .lineStart) Emit.space) s _ := .when (.write _ s)
  have hbrackets : Does (Emit.when (o.emptyAsBraces = true) (Emit.write (.text brackets))) s _ :=
    .when (.write _ s)
  refine .seq hspace ?_ (.seq hbrackets ?_ (.write _ s)) <;> split <;> rfl

namespace State

theorem settled_beginEntry (s : State) : settled s s.beginEntry.1 = s.beginEntry.2 := by
  obtain ⟨stage, stack⟩ := s
  match stack with
  | [] => rfl
  | ⟨.mapping _, _, _, _⟩ :: fs => rfl
  | ⟨.sequence, column, lead, length⟩ :: fs =>
    simp only [beginEntry, settled_append]
    rfl

theorem does_beginEntry (s : State) : Does Emit.beginEntry s s.beginEntry.1 := by
  obtain ⟨stage, stack⟩ := s
  match stack with
  | [] => exact .nothing _
  | ⟨.mapping _, _, _, _⟩ :: fs => exact .nothing _
  | ⟨.sequence, column, lead, length⟩ :: fs =>
    exact .seq (does_entryStart _ _) ((writeOnly_entryStart _).settled _) (.seq (.write _ _) rfl (.change _ _))

theorem does_writeScalar (s : State) (text : List Char) :
    Does (Emit.writeScalar s.slot text) s (s.writeScalar text) := by
  have hspace : Does (Emit.when (s.slot ≠ .root) Emit.space) s.beginEntry.2 _ := .when (.write _ _)
  refine .seq s.does_beginEntry s.settled_beginEntry (.seq hspace ?_
    (.seq (.write _ _) rfl (.seq (.write _ _) rfl (.change _ _))))
  split <;> rfl

theorem follows_writeKey (s : State) (key : List Char) :
    Follows (Emit.writeKey key) s (s.writeKey key) := by
  obtain ⟨stage, stack⟩ := s
  match stack with
  | [] => exact fun _ => rfl
  | f :: fs =>
    exact .seq (does_entryStart f _) ((writeOnly_entryStart f).settled _) (.seq (does_keyText f.column key _)
      ((writeOnly_keyActions f.column key).settled _) (.seq (.write _ _) rfl (.change _ _)))

theorem follows_openCollection (o : WriterOptions) (kind : Kind) (s : State) :
    Follows (Emit.openCollection o kind) s (s.openCollection o kind) := by
  have hopen (c : Nat) (l : Lead) : Does (do
      Emit.beginEntry
      Emit.change fun s => { s with stack := ⟨kind, c, l, 0⟩ :: s.stack }) s _ :=
    .seq s.does_beginEntry s.settled_beginEntry (.change _ _)
  obtain ⟨stage, stack⟩ := s
  match stack with
  | [] => exact hopen _ _
  | ⟨.sequence, _, _, _⟩ :: _ => exact hopen _ _
  | ⟨.mapping true, _, _, _⟩ :: _ => exact hopen _ _
  | ⟨.mapping false, _, _, _⟩ :: _ => exact fun _ => rfl

theorem follows_closeCollection (o : WriterOptions) (brackets : List Char) (s : State) :
    Follows (Emit.close o brackets) s (s.closeCollection o brackets) := by
  obtain ⟨stage, stack⟩ := s
  match stack with
  | [] => exact fun _ => rfl
  | f :: fs =>
    have hempty : Does (Emit.when (f.length = 0) (Emit.writeEmpty o f.lead brackets)) ⟨stage, fs⟩ _ :=
      .when (does_writeEmpty o f.lead brackets _)
    have hsettled : settled ⟨stage, fs⟩
        (if f.length = 0 then emptyActions o f.lead brackets else []) = ⟨stage, fs⟩ := by
      split
      · exact (writeOnly_emptyActions o f.lead brackets).settled _
      · rfl
    have htaken : Does (Emit.change fun s => { s with stack := fs }) ⟨stage, f :: fs⟩ _ := .change _ _
    exact htaken.seq rfl (hempty.seq hsettled (.change _ _))

theorem follows_nodeActions (o : WriterOptions) (s : State) (e : Event) :
    Follows (Emit.nodeEvent o e) s (s.nodeActions o e) := by
  obtain ⟨stage, stack⟩ := s
  cases e with
  | scalar text p =>
    have hscalar := does_writeScalar ⟨stage, stack⟩ (render text p)
    have hkey := follows_writeKey ⟨stage, stack⟩ (render text p)
    match stack with
    | [] => exact hscalar
    | ⟨.sequence, _, _, _⟩ :: _ => exact hscalar
    | ⟨.mapping true, _, _, _⟩ :: _ => exact hscalar
    | ⟨.mapping false, _, _, _⟩ :: _ => exact hkey
  | sequenceStart => exact follows_openCollection o _ _
  | mappingStart => exact follows_openCollection o _ _
  | sequenceEnd =>
    have hclose := follows_closeCollection o ['[', ']'] ⟨stage, stack⟩
    match stack with
    | [] => exact fun _ => rfl
    | ⟨.sequence, _, _, _⟩ :: _ => exact hclose
    | ⟨.mapping _, _, _, _⟩ :: _ => exact fun _ => rfl
  | mappingEnd =>
    have hclose := follows_closeCollection o ['{', '}'] ⟨stage, stack⟩
    match stack with
    | [] => exact fun _ => rfl
    | ⟨.sequence, _, _, _⟩ :: _ => exact fun _ => rfl
    | ⟨.mapping true, _, _, _⟩ :: _ => exact fun _ => rfl
    | ⟨.mapping false, _, _, _⟩ :: _ => exact hclose
  | streamStart | streamEnd | documentStart | documentEnd => exact fun _ => rfl

theorem does_enter (stage : Stage) (s : State) :
    Does (Emit.enter stage) s [.settle { s with stage }] := .change _ s

/-- Every event is refused before anything has been done, or follows its script. -/
theorem follows_actions (o : WriterOptions) (s : State) (e : Event) :
    Follows (Emit.event o e) s (s.actions o e) := by
  obtain ⟨stage, stack⟩ := s
  match stage with
  | .document false =>
    have hnode := follows_nodeActions o ⟨.document false, stack⟩ e
    cases e with
    | documentEnd => exact fun _ => rfl
    | _ => exact hnode
  | .initial =>
    cases e with
    | streamStart => exact does_enter .stream ⟨.initial, stack⟩
    | _ => exact fun _ => rfl
  | .stream =>
    cases e with
    | documentStart => exact does_enter (.document false) ⟨.stream, stack⟩
    | streamEnd => exact does_enter .finished ⟨.stream, stack⟩
    | _ => exact fun _ => rfl
  | .document true =>
    cases e with
    | documentEnd => exact does_enter .stream ⟨.document true, stack⟩
    | _ => exact fun _ => rfl
  | .finished => exact fun _ => rfl

end State

namespace Session

/-- What feeding an event comes to, by its script. -/
theorem feed_eq (o : WriterOptions) (s : Session) (e : Event) :
    s.feed o e =
      match s.state.actions o e with
      | .error r => (s, some (.refused r))
      | .ok as =>
        match s.perform as with
        | (t, true) => (t, none)
        | (t, false) => (t, some .sinkFull) := by
  have hfollows := s.state.follows_actions o e
  rw [feed, EStateM.run]
  cases ha : s.state.actions o e with
  | error r =>
    rw [ha] at hfollows
    rw [hfollows s.sink]
  | ok as =>
    rw [ha] at hfollows
    rw [hfollows s.sink]
    rcases hp : s.perform as with ⟨t, _ | _⟩ <;> simp only [hp, outcome]

end Session
end YamlCodec.Writer
