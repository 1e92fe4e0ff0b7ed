import YamlCodec.Proofs.Decode.Tree

/-!
# How far parts lead

Parts that are all taken, the root not being complete yet, lead from one stack to another, and the
building goes on from there whatever comes after them. Any other parts settle the outcome, and what
comes after them is left alone.
-/

set_option autoImplicit false

namespace YamlCodec
open Decode

deriving instance DecidableEq for Event, Item

/-- The event of an item, if it is not a fault. -/
def Item.event? : Item → Option Event
  | .event e _ => some e
  | .fault _ _ => none

/-- The item is the start of a document. -/
def Item.startsDocument : Item → Bool
  | .event .documentStart _ => true
  | _ => false

/-- The parts that items stand for. -/
def Item.kinds (items : List Item) : List Part.Kind :=
  (items.filterMap Item.event?).filterMap Part.ofEvent?

theorem Item.kinds_prefix {items : List Item} {es : List Event}
    (h : es.map some <+: items.map Item.event?) :
    es.filterMap Part.ofEvent? <+: Item.kinds items := by
  have hevents := (h.filterMap id).filterMap Part.ofEvent?
  simpa [Item.kinds, List.filterMap_map] using hevents

namespace Decode

theorem cons_ending (k : Option Part.Kind) (l : Location) (s : Supply) :
    (s.cons k l).ending = s.ending := by
  cases k <;> rfl

/-- Where the items run out without a failure, the parts are those of all of them. -/
theorem kinds_of_exhausted {m : Option Meter} {last l : Location} {items : List Item}
    (h : (Supply.ofItems m last items).ending = .exhausted l) :
    (Supply.ofItems m last items).parts.map Part.kind = Item.kinds items := by
  induction items generalizing m last with
  | nil => rfl
  | cons item items ih =>
    cases item with
    | fault f mark => simp [Supply.ofItems] at h
    | event e mark =>
      rw [Supply.ofItems] at h ⊢
      split at h
      · simp at h
      · rw [cons_ending] at h
        have hparts := ih h
        simp only [Item.kinds, List.filterMap_cons, Item.event?] at hparts ⊢
        cases Part.ofEvent? e with
        | none => exact hparts
        | some k => exact congrArg (List.cons k) hparts

/-- Items that run out have no fault among them. -/
theorem events_of_exhausted {m : Option Meter} {last l : Location} {items : List Item}
    (h : (Supply.ofItems m last items).ending = .exhausted l) :
    ∀ item ∈ items, item.event?.isSome := by
  induction items generalizing m last with
  | nil => exact fun item hitem => absurd hitem List.not_mem_nil
  | cons item items ih =>
    cases item with
    | fault f mark => simp [Supply.ofItems] at h
    | event e mark =>
      rw [Supply.ofItems] at h
      split at h
      · simp at h
      · rw [cons_ending] at h
        exact List.forall_mem_cons.mpr ⟨rfl, ih h⟩

/-- The stack that parts lead to, if the building goes on after each of them. -/
def stackAfter? (stack : List Frame) : List Part → Option (List Frame)
  | [] => some stack
  | p :: parts =>
    match accept stack p with
    | .ok (.going stack) => stackAfter? stack parts
    | _ => none

theorem place_length {v : Value} {stack stack' : List Frame} (h : place v stack = .going stack') :
    stack'.length = stack.length := by
  match stack with
  | [] => simp [place] at h
  | .sequence _ :: _ => simp [place] at h; simp [← h]
  | .mapping _ (some _) :: _ => simp [place] at h; simp [← h]
  | .mapping _ none :: _ => simp [place] at h; simp [← h]

/-- A part is refused only for its place among the others. -/
theorem accept_error {stack : List Frame} {p : Part} {e : Error} (h : accept stack p = .error e) :
    ∃ x l, e = .unexpected x l := by
  obtain ⟨kind, l⟩ := p
  unfold accept at h
  split at h
  · split at h <;> simp at h
  all_goals
    split at h
    all_goals first
      | exact ⟨_, _, (Except.error.inj h).symm⟩
      | simp at h

theorem build_error {ending : Ending} {stack : List Frame} {parts : List Part} {e : Error}
    (h : (build ending stack parts).1 = .error e) :
    (∃ x l, e = .unexpected x l) ∨ ending = .failed e ∨
      ∃ l, ending = .exhausted l ∧ e = .endOfInput l := by
  induction parts generalizing stack with
  | nil =>
    cases ending with
    | failed e' => exact .inr (.inl (by simpa [build, atEnd] using h))
    | exhausted l =>
      refine .inr (.inr ⟨l, rfl, ?_⟩)
      simp only [build, atEnd] at h
      split at h
      · simp at h
      · exact (Except.error.inj h).symm
  | cons p parts ih =>
    rw [build_cons] at h
    cases ha : accept stack p with
    | error e' =>
      obtain rfl : e' = e := by simpa [ha] using h
      exact .inl (accept_error ha)
    | ok g =>
      rw [ha] at h
      cases g with
      | done v => simp [proceed] at h
      | going stack' => exact ih h

theorem build_append {stack stack' : List Frame} {parts : List Part}
    (h : stackAfter? stack parts = some stack') (ending : Ending) (rest : List Part) :
    build ending stack (parts ++ rest) = build ending stack' rest := by
  induction parts generalizing stack with
  | nil =>
    obtain rfl : stack = stack' := Option.some.inj h
    rfl
  | cons p parts ih =>
    rw [List.cons_append, build_cons]
    rw [stackAfter?] at h
    cases ha : accept stack p with
    | error e => simp [ha] at h
    | ok g =>
      cases g with
      | done v => simp [ha] at h
      | going s =>
        rw [ha] at h
        exact ih h

/-- Parts that lead nowhere settle the outcome, which then has nothing to do with what comes later. -/
theorem build_settled {stack : List Frame} {parts : List Part} (h : stackAfter? stack parts = none) :
    ∃ r left, (∀ e, r = .error e → ∃ x l, e = .unexpected x l) ∧
      ∀ (ending : Ending) (rest : List Part),
        build ending stack (parts ++ rest) = (r, left ++ rest) := by
  induction parts generalizing stack with
  | nil => simp [stackAfter?] at h
  | cons p parts ih =>
    rw [stackAfter?] at h
    cases ha : accept stack p with
    | error e =>
      refine ⟨.error e, parts, fun e' he => ?_, fun ending rest => ?_⟩
      · exact Except.error.inj he ▸ accept_error ha
      · rw [List.cons_append, build_cons, ha]
    | ok g =>
      cases g with
      | done v =>
        refine ⟨.ok v, parts, fun e he => by simp at he, fun ending rest => ?_⟩
        rw [List.cons_append, build_cons, ha]
        rfl
      | going s =>
        rw [ha] at h
        obtain ⟨r, left, hr, hb⟩ := ih h
        refine ⟨r, left, hr, fun ending rest => ?_⟩
        rw [List.cons_append, build_cons, ha]
        exact hb ending rest

/-- Where parts build a value and nothing is left, fewer of them meet the end that comes. -/
theorem build_short {parts more : List Part} {v : Value} {ending : Ending}
    (h : build ending [] (parts ++ more) = (.ok v, [])) (hm : more ≠ []) (e : Error) :
    (build (.failed e) [] parts).1 = .error e := by
  cases hs : stackAfter? [] parts with
  | none =>
    obtain ⟨r, left, _, hb⟩ := build_settled hs
    have hleft : left ++ more = [] := (Prod.mk.inj ((hb ending more).symm.trans h)).2
    exact absurd (List.append_eq_nil_iff.mp hleft).2 hm
  | some stack =>
    have hb := build_append hs (.failed e) []
    rw [List.append_nil] at hb
    rw [hb]
    rfl

end Decode
end YamlCodec
