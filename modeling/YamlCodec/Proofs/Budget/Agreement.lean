import YamlCodec.Proofs.Decode.Run
import YamlCodec.Decode.Text

/-!
# Decoding and the check of a stream agree

The check counts a whole stream, decoding only as far as it reads. Both meet the same first breach
or fault: where decoding meets one, the check has met nothing before it, and where the check meets none,
decoding can only fail on the shape of the events.
-/

set_option autoImplicit false

namespace YamlCodec
open Decode

namespace Decode

def Part.Kind.opens : Part.Kind → Bool
  | .sequenceStart | .mappingStart => true
  | _ => false

def Part.Kind.closes : Part.Kind → Bool
  | .sequenceEnd | .mappingEnd => true
  | _ => false

/-- As many collections end as start. -/
def Balanced (items : List Item) : Prop :=
  (Item.kinds items).countP Part.Kind.opens = (Item.kinds items).countP Part.Kind.closes

/-- The items tell whole nodes one after the other, every entry of a mapping being a key and a
value. -/
def TellsTrees (items : List Item) : Prop := ∃ ts, Item.kinds items = Tree.itemKinds ts

theorem ofItems_event (m : Meter) (last : Location) (e : Event) (mark : Source.Mark)
    (items : List Item) :
    Supply.ofItems (some m) last (.event e mark :: items) =
      match (m.observe e).2 with
      | some x => ⟨[], .failed (.overBudget x (.ofMark mark))⟩
      | none =>
        (Supply.ofItems (some (m.observe e).1) (.ofMark mark) items).cons (Part.ofEvent? e)
          (.ofMark mark) := by
  rw [Supply.ofItems, meter]
  rcases m.observe e with ⟨n, _ | x⟩ <;> rfl

theorem checkItems_event (m : Meter) (e : Event) (mark : Source.Mark) (items : List Item) :
    Budget.checkItems m (.event e mark :: items) =
      match (m.observe e).2 with
      | some x => .ok { (m.observe e).1.report with breached := some x }
      | none => Budget.checkItems (m.observe e).1 items := by
  rw [Budget.checkItems]
  rcases m.observe e with ⟨n, _ | x⟩ <;> rfl

/-- Where the parts end at a breach or fault, the check of the items meets the same. -/
theorem check_of_failed {m : Meter} {last : Location} {items : List Item} {e : Error}
    (h : (Supply.ofItems (some m) last items).ending = .failed e) :
    (∃ x l r, e = .overBudget x l ∧ Budget.checkItems m items = .ok r ∧ r.breached = some x) ∨
    (∃ f l, e = .malformed f l ∧ Budget.checkItems m items = .error (.malformed f l)) := by
  induction items generalizing m last with
  | nil => simp [Supply.ofItems] at h
  | cons item items ih =>
    cases item with
    | fault f mark =>
      obtain rfl : Error.ofFault f mark = e := by simpa [Supply.ofItems] using h
      by_cases hf : f = .flowTooDeep
      · subst hf
        exact .inl ⟨Error.flowBreach, .ofMark mark, _, rfl, rfl, rfl⟩
      · refine .inr ⟨f, .ofMark mark, ?_, ?_⟩
        · cases f <;> first | rfl | exact absurd rfl hf
        · cases f <;> first | rfl | exact absurd rfl hf
    | event ev mark =>
      rw [ofItems_event] at h
      rw [checkItems_event]
      cases ho : (m.observe ev).2 with
      | none =>
        rw [ho] at h
        exact ih ((cons_ending _ _ _).symm.trans h)
      | some x =>
        obtain rfl : Error.overBudget x (.ofMark mark) = e := by simpa [ho] using h
        exact .inl ⟨x, _, _, rfl, rfl, rfl⟩

/-- Where the check meets neither, the items run out. -/
theorem exhausted_of_check {m : Meter} (last : Location) {items : List Item} {r : Report}
    (h : Budget.checkItems m items = .ok r) (hr : r.breached = none) :
    ∃ l, (Supply.ofItems (some m) last items).ending = .exhausted l := by
  induction items generalizing m last with
  | nil => exact ⟨last, rfl⟩
  | cons item items ih =>
    cases item with
    | fault f mark =>
      cases f with
      | flowTooDeep =>
        obtain rfl := Except.ok.inj h
        cases hr
      | _ => cases h
    | event ev mark =>
      rw [checkItems_event] at h
      rw [ofItems_event]
      cases ho : (m.observe ev).2 with
      | none =>
        rw [ho] at h
        obtain ⟨l, hend⟩ := ih (.ofMark mark) h
        exact ⟨l, by rw [cons_ending]; exact hend⟩
      | some x =>
        rw [ho] at h
        simp [← Except.ok.inj h] at hr

/-- The stack is as high as collections have started and not ended. -/
theorem accept_length {stack stack' : List Frame} {p : Part}
    (h : accept stack p = .ok (.going stack')) :
    stack'.length + [p.kind].countP Part.Kind.closes =
      stack.length + [p.kind].countP Part.Kind.opens := by
  obtain ⟨kind, l⟩ := p
  match kind with
  | .scalar text style tag =>
    simp only [accept] at h
    split at h
    · simp at h
      simp [← h, Part.Kind.closes, Part.Kind.opens]
    · simp at h
      simp [place_length h, Part.Kind.closes, Part.Kind.opens]
  | .alias =>
    simp only [accept] at h
    split at h
    · simp at h
    · simp at h
      simp [place_length h, Part.Kind.closes, Part.Kind.opens]
  | .sequenceStart =>
    simp only [accept] at h
    split at h <;> simp at h
    simp [← h, Part.Kind.closes, Part.Kind.opens]
  | .mappingStart =>
    simp only [accept] at h
    split at h <;> simp at h
    simp [← h, Part.Kind.closes, Part.Kind.opens]
  | .sequenceEnd =>
    simp only [accept] at h
    split at h <;> simp at h
    simp [place_length h, Part.Kind.closes, Part.Kind.opens]
  | .mappingEnd =>
    simp only [accept] at h
    split at h <;> simp at h
    simp [place_length h, Part.Kind.closes, Part.Kind.opens]

theorem build_balanced {last l : Location} {stack : List Frame} {parts : List Part}
    (h : stack.length + (parts.map Part.kind).countP Part.Kind.opens =
      (parts.map Part.kind).countP Part.Kind.closes) :
    (build (.exhausted last) stack parts).1 ≠ .error (.endOfInput l) := by
  induction parts generalizing stack with
  | nil =>
    obtain rfl : stack = [] := by simpa using h
    simp [build, atEnd]
  | cons p parts ih =>
    rw [build_cons]
    cases ha : accept stack p with
    | error e =>
      obtain ⟨x, l', rfl⟩ := accept_error ha
      simp
    | ok g =>
      cases g with
      | done v => simp [proceed]
      | going stack' =>
        have hl := accept_length ha
        refine ih ?_
        rw [List.map_cons, ← List.singleton_append, List.countP_append, List.countP_append] at h
        omega

/-- Where the parts are those of whole nodes, only a key that is not a scalar can stop a build. -/
theorem build_trees {last : Location} {parts : List Part} {ts : List Tree}
    (h : parts.map Part.kind = Tree.itemKinds ts) :
    (∃ v, (build (.exhausted last) [] parts).1 = .ok v) ∨
      StopsAtKey (build (.exhausted last) [] parts) := by
  cases ts with
  | nil =>
    obtain rfl : parts = [] := by simpa [Tree.itemKinds] using h
    exact .inl ⟨.null, rfl⟩
  | cons t ts =>
    obtain ⟨ps, qs, rfl, hps, _⟩ := List.map_eq_append_iff.mp h
    rcases build_tree (.exhausted last) t [] rfl hps qs with ⟨v, _, hb⟩ | ⟨_, hb⟩
    · exact .inl ⟨v, by rw [hb]; rfl⟩
    · exact .inr hb

end Decode

/-- How the outcome of decoding items lets one tell that of the check, and the other way round. -/
structure Agree (items : List Item) (decoded : Except Error Value) (checked : Except Error Report) :
    Prop where
  /-- A breach of decoding is the breach of the check. -/
  breach : ∀ x l, decoded = .error (.overBudget x l) → ∃ r, checked = .ok r ∧ r.breached = some x
  /-- A fault of decoding is the fault of the check. -/
  fault : ∀ f l, decoded = .error (.malformed f l) → checked = .error (.malformed f l)
  /-- Without a breach or fault of the check only the place of an event can stop decoding. -/
  clear : ∀ r, checked = .ok r → r.breached = none → Balanced items →
    (∃ v, decoded = .ok v) ∨ ∃ x l, decoded = .error (.unexpected x l)
  /-- If the events tell whole nodes, this is a key that is not a scalar. -/
  clearTrees : ∀ r, checked = .ok r → r.breached = none → TellsTrees items →
    (∃ v, decoded = .ok v) ∨ ∃ l, decoded = .error (.unexpected .scalarKey l)

theorem agree_items (items : List Item) (b : Budget) :
    Agree items (decodeItems items (some b)) (Budget.checkItems (.start b) items) := by
  have hvalue : decodeItems items (some b) =
      (build (Supply.ofItems (some (.start b)) .unknown items).ending []
        (Supply.ofItems (some (.start b)) .unknown items).parts).1 := rfl
  constructor
  · intro x l h
    rw [hvalue] at h
    rcases build_error h with ⟨_, _, he⟩ | he | ⟨_, _, he⟩
    · simp at he
    · rcases check_of_failed he with ⟨x', l', r, hx, hr⟩ | ⟨f, l', hx, _⟩
      · obtain ⟨rfl, rfl⟩ := Error.overBudget.inj hx
        exact ⟨r, hr⟩
      · simp at hx
    · simp at he
  · intro f l h
    rw [hvalue] at h
    rcases build_error h with ⟨_, _, he⟩ | he | ⟨_, _, he⟩
    · simp at he
    · rcases check_of_failed he with ⟨x', l', r, hx, hr⟩ | ⟨f', l', hx, hc⟩
      · simp at hx
      · rw [hx, hc]
    · simp at he
  · intro r hr hb hbal
    obtain ⟨last, hend⟩ := exhausted_of_check .unknown hr hb
    have hparts := kinds_of_exhausted hend
    rw [hvalue, hend]
    cases hres : (build (.exhausted last) []
        (Supply.ofItems (some (.start b)) .unknown items).parts).1 with
    | ok v => exact .inl ⟨v, rfl⟩
    | error e =>
      rcases build_error hres with ⟨x, l, rfl⟩ | he | ⟨l, _, rfl⟩
      · exact .inr ⟨x, l, rfl⟩
      · simp at he
      · refine absurd hres (build_balanced ?_)
        rw [hparts]
        simpa [Decode.Balanced] using hbal
  · intro r hr hb ⟨ts, hts⟩
    obtain ⟨last, hend⟩ := exhausted_of_check .unknown hr hb
    have hparts := kinds_of_exhausted hend
    rw [hvalue, hend]
    exact build_trees (hparts.trans hts)

/-- Decoding under a budget and checking the budget agree, on any items that a reader may yield and
so on any text. -/
theorem decode_agrees_with_check (b : Budget) :
    (∀ items, Agree items (decodeItems items (some b)) (Budget.checkItems (.start b) items)) ∧
      ∀ text, Agree (Event.read text) (decode text (some b)) (checkBudget text b) :=
  ⟨fun items => agree_items items b, fun text => agree_items (Event.read text) b⟩

end YamlCodec
