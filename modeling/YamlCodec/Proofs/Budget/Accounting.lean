import Mathlib
import YamlCodec.Proofs.Budget.Counts

/-!
# What a meter answers

The counts of events told without a meter, and the answers of a meter to events in turn, on which it goes
on after a breach. It lets events through for as long as their counts are within the budget, and shows
these counts; the first event that takes them out of it is answered with the limit it exceeds. From then
on what this limit counts is refused.
-/

set_option autoImplicit false

namespace YamlCodec

namespace Event

def isScalar : Event → Bool
  | .scalar _ _ _ => true
  | _ => false

def opensCollection : Event → Bool
  | .sequenceStart | .mappingStart => true
  | _ => false

def isNode (e : Event) : Bool := e.isScalar || e.opensCollection

def isAlias : Event → Bool
  | .alias => true
  | _ => false

def opensDocument : Event → Bool
  | .documentStart => true
  | _ => false

/-- The bytes of the text of a scalar. -/
def bytes : Event → Nat
  | .scalar text _ _ => text.utf8ByteSize
  | _ => 0

/-- The nesting after an event; an end changes nothing where no collection is open. -/
def nest (depth : Nat) : Event → Nat
  | .sequenceStart | .mappingStart => depth + 1
  | .sequenceEnd | .mappingEnd => depth - 1
  | _ => depth

def nesting (es : List Event) : Nat := es.foldl nest 0

/-- The greatest nesting after any of the events. -/
def deepest (es : List Event) : Nat := (es.inits.map nesting).foldl max 0

theorem nesting_concat (es : List Event) (e : Event) : nesting (es ++ [e]) = e.nest (nesting es) := by
  rw [nesting, List.foldl_append]
  rfl

theorem deepest_concat (es : List Event) (e : Event) :
    deepest (es ++ [e]) = max (deepest es) (nesting (es ++ [e])) := by
  have hinits : (es ++ [e]).inits = es.inits ++ [es ++ [e]] := by simp [List.inits_append]
  rw [deepest, hinits, List.map_append, List.foldl_append]
  rfl

theorem nesting_le_deepest (es : List Event) : nesting es ≤ deepest es := by
  induction es using List.reverseRecOn with
  | nil => exact Nat.zero_le _
  | append_singleton es e _ =>
    rw [deepest_concat]
    exact Nat.le_max_right _ _

end Event

namespace Counts

/-- What events hold. -/
def ofEvents (es : List Event) : Counts where
  events := es.length
  aliases := es.countP Event.isAlias
  documents := es.countP Event.opensDocument
  nodes := es.countP Event.isNode
  depth := Event.nesting es
  maxDepth := Event.deepest es
  bytes := (es.map Event.bytes).sum

theorem ofEvents_concat (es : List Event) (e : Event) :
    ofEvents (es ++ [e]) = (ofEvents es).add e := by
  have hdeep := Event.nesting_le_deepest es
  have hend : max (Event.deepest es) (Event.nesting es - 1) = Event.deepest es := by omega
  simp only [ofEvents, List.length_append, List.countP_append, List.map_append, List.sum_append,
    Event.deepest_concat, Event.nesting_concat]
  cases e <;>
    simp [add, Event.isAlias, Event.opensDocument, Event.isNode, Event.isScalar,
      Event.opensCollection, Event.bytes, Event.nest, hdeep, hend]

/-- Counting one event after the other comes to what they hold together. -/
theorem addAll_zero (es : List Event) : zero.addAll es = ofEvents es := by
  induction es using List.reverseRecOn with
  | nil => rfl
  | append_singleton es e ih =>
    rw [addAll_append, ih, ofEvents_concat]
    rfl

end Counts

/-- The count of a breach is the first above its limit. Bytes may go further above theirs at once. -/
def Breach.StepsOver (b : Budget) : Breach → Prop
  | .events n => n = b.maxEvents + 1
  | .nodes n => n = b.maxNodes + 1
  | .depth n => n = b.maxDepth + 1
  | .scalarBytes n => b.maxScalarBytes < n

theorem Counts.breach?_stepsOver {b : Budget} {c : Counts} (hc : c.Within b)
    (hd : c.depth ≤ c.maxDepth) {e : Event} {x : Breach} (h : (c.add e).breach? b = some x) :
    x.StepsOver b := by
  obtain ⟨hevents, hnodes, hdepth, -⟩ := hc
  have hn : (c.add e).nodes ≤ c.nodes + 1 := by cases e <;> simp [add]
  have hm : (c.add e).maxDepth ≤ max c.maxDepth (c.depth + 1) := by
    cases e <;> simp only [add] <;> omega
  unfold breach? at h
  rw [add_events] at h
  split at h
  · obtain rfl := Option.some.inj h
    simp only [Breach.StepsOver]
    omega
  split at h
  · obtain rfl := Option.some.inj h
    simp only [Breach.StepsOver]
    omega
  split at h
  · obtain rfl := Option.some.inj h
    assumption
  split at h
  · obtain rfl := Option.some.inj h
    simp only [Breach.StepsOver]
    omega
  · simp at h

/-- The events that are refused where the limit of a breach is exceeded. -/
def Breach.refuses : Breach → Event → Bool
  | .events _, _ => true
  | .nodes _, e => e.isNode
  | .scalarBytes _, e => e.isScalar
  | .depth _, e => e.opensCollection

namespace Meter
open Counts

/-- The meter after events, whatever it has answered to them. -/
def after (m : Meter) (es : List Event) : Meter := es.foldl (fun m e => (m.observe e).1) m

/-- What a meter answers to events in turn. -/
def answers (m : Meter) : List Event → List (Option Breach)
  | [] => []
  | e :: es => (m.observe e).2 :: (m.observe e).1.answers es

theorem after_append (m : Meter) (es fs : List Event) :
    m.after (es ++ fs) = (m.after es).after fs := List.foldl_append

theorem answers_append (m : Meter) (es fs : List Event) :
    m.answers (es ++ fs) = m.answers es ++ (m.after es).answers fs := by
  induction es generalizing m with
  | nil => rfl
  | cons e es ih => exact congrArg (List.cons _) (ih _)

/-! ## Up to the first breach -/

theorem run_within {b : Budget} {c : Counts} {es : List Event} (h : (c.addAll es).Within b) :
    (showing b c).after es = showing b (c.addAll es) ∧
      (showing b c).answers es = List.replicate es.length none := by
  induction es generalizing c with
  | nil => exact ⟨rfl, rfl⟩
  | cons e es ih =>
    have hstep : (showing b c).observe e = (showing b (c.add e), none) :=
      observe_within (within_of_addAll h)
    obtain ⟨hafter, hanswers⟩ := ih h
    rw [after, List.foldl_cons, answers, hstep, List.length_cons, List.replicate_succ, hanswers]
    exact ⟨hafter, rfl⟩

theorem start_within {b : Budget} {es : List Event} (h : (ofEvents es).Within b) :
    (start b).after es = showing b (ofEvents es) ∧
      (start b).answers es = List.replicate es.length none := by
  rw [← addAll_zero] at h ⊢
  exact run_within h

/-- The events up to a first one that takes their counts out of the budget. -/
theorem start_breach {b : Budget} {es : List Event} (h : ¬ (ofEvents es).Within b) :
    ∃ before e after x, es = before ++ e :: after ∧ (ofEvents before).Within b ∧
      (ofEvents (before ++ [e])).breach? b = some x ∧ x.StepsOver b ∧
      (start b).answers es = List.replicate before.length none ++
        some x :: ((start b).after (before ++ [e])).answers after := by
  rw [← addAll_zero] at h
  obtain ⟨before, e, rest, rfl, hbefore, he⟩ := first_breach (b := some b) (zero_within b) h
  rw [addAll_zero] at hbefore he
  obtain ⟨hafter, hanswers⟩ := start_within hbefore
  have hanswer := observe_answer hbefore e
  rw [← hafter] at hanswer
  obtain ⟨x, hx⟩ := Option.ne_none_iff_exists'.mp fun hnone => he (breach?_none_iff.mp hnone)
  refine ⟨before, e, rest, x, rfl, hbefore, by rw [ofEvents_concat, hx], ?_, ?_⟩
  · exact breach?_stepsOver hbefore (Event.nesting_le_deepest before) hx
  · rw [answers_append, hanswers, answers, hanswer, hx, after_append]
    rfl

/-! ## After a breach -/

/-- The meter with more events, and nothing else moved. -/
def withEvents (m : Meter) (n : Nat) : Meter :=
  { m with report := { m.report with events := m.report.events + n } }

theorem observe_eq (m : Meter) (e : Event) :
    m.observe e = if m.budget.maxEvents < m.report.events + 1 then
      (m.withEvents 1, some (.events (m.report.events + 1))) else (m.withEvents 1).countContent e := rfl

/-- The first meter shows no more of what is limited than the second. Byte counts above the ceiling do not
count. -/
structure ShowsLess (m m' : Meter) : Prop where
  budget : m'.budget = m.budget
  events : m.report.events ≤ m'.report.events
  nodes : m.report.nodes ≤ m'.report.nodes
  bytes : min m.report.scalarBytes byteCeiling ≤ min m'.report.scalarBytes byteCeiling
  depth : m.report.maxDepth ≤ m'.report.maxDepth

theorem ShowsLess.refl (m : Meter) : m.ShowsLess m :=
  ⟨rfl, Nat.le_refl _, Nat.le_refl _, Nat.le_refl _, Nat.le_refl _⟩

theorem ShowsLess.trans {m m' m'' : Meter} (h : m.ShowsLess m') (h' : m'.ShowsLess m'') :
    m.ShowsLess m'' :=
  ⟨h'.budget.trans h.budget, h.events.trans h'.events, h.nodes.trans h'.nodes,
    h.bytes.trans h'.bytes, h.depth.trans h'.depth⟩

section
variable (m : Meter)

theorem showsLess_countNode : m.ShowsLess m.countNode.1 :=
  ⟨rfl, Nat.le_refl _, Nat.le_succ _, Nat.le_refl _, Nat.le_refl _⟩

theorem showsLess_countBytes (n : Nat) : m.ShowsLess (m.countBytes n).1 := by
  refine ⟨rfl, Nat.le_refl _, Nat.le_refl _, ?_, Nat.le_refl _⟩
  simp only [countBytes]
  omega

theorem showsLess_descend : m.ShowsLess m.descend.1 :=
  ⟨rfl, Nat.le_refl _, Nat.le_refl _, Nat.le_refl _, Nat.le_max_left _ _⟩

theorem showsLess_andThen {r : Meter × Option Breach} {f : Meter → Meter × Option Breach}
    (h : m.ShowsLess r.1) (hf : r.1.ShowsLess (f r.1).1) : m.ShowsLess (andThen r f).1 := by
  unfold andThen
  split
  · exact h
  · exact h.trans hf

theorem showsLess_countContent (e : Event) : m.ShowsLess (m.countContent e).1 := by
  cases e with
  | scalar text style tag =>
    exact m.showsLess_andThen m.showsLess_countNode (showsLess_countBytes _ _)
  | sequenceStart | mappingStart =>
    exact m.showsLess_andThen m.showsLess_countNode (showsLess_descend _)
  | _ => exact ⟨rfl, Nat.le_refl _, Nat.le_refl _, Nat.le_refl _, Nat.le_refl _⟩

theorem showsLess_withEvents : m.ShowsLess (m.withEvents 1) :=
  ⟨rfl, Nat.le_succ _, Nat.le_refl _, Nat.le_refl _, Nat.le_refl _⟩

theorem showsLess_observe (e : Event) : m.ShowsLess (m.observe e).1 := by
  rw [observe_eq]
  split
  · exact m.showsLess_withEvents
  · exact m.showsLess_withEvents.trans (showsLess_countContent _ e)

theorem showsLess_after (es : List Event) : m.ShowsLess (m.after es) := by
  induction es generalizing m with
  | nil => exact .refl m
  | cons e es ih => exact (m.showsLess_observe e).trans (ih _)

end

/-- The meter shows more than the limit of this kind allows. -/
def Over (m : Meter) : Breach → Prop
  | .events _ => m.budget.maxEvents < m.report.events
  | .nodes _ => m.budget.maxNodes < m.report.nodes
  | .scalarBytes _ => m.budget.maxScalarBytes < min m.report.scalarBytes byteCeiling
  | .depth _ => m.budget.maxDepth < m.report.maxDepth

theorem Over.mono {m m' : Meter} {x : Breach} (h : m.Over x) (hle : m.ShowsLess m') : m'.Over x := by
  cases x with
  | events n => exact (hle.budget ▸ h : m'.budget.maxEvents < _).trans_le hle.events
  | nodes n => exact (hle.budget ▸ h : m'.budget.maxNodes < _).trans_le hle.nodes
  | scalarBytes n => exact (hle.budget ▸ h : m'.budget.maxScalarBytes < _).trans_le hle.bytes
  | depth n => exact (hle.budget ▸ h : m'.budget.maxDepth < _).trans_le hle.depth

theorem over_andThen {r : Meter × Option Breach} {f : Meter → Meter × Option Breach}
    (hr : ∀ x, r.2 = some x → r.1.Over x) (hf : ∀ x, (f r.1).2 = some x → (f r.1).1.Over x)
    (x : Breach) (h : (andThen r f).2 = some x) : (andThen r f).1.Over x := by
  unfold andThen at h ⊢
  split at h
  · exact hr x h
  · exact hf x h

section
variable (m : Meter)

theorem over_countNode (x : Breach) (h : m.countNode.2 = some x) : m.countNode.1.Over x := by
  obtain ⟨hlt, hx⟩ := Option.ite_none_right_eq_some.mp h
  obtain rfl := Option.some.inj hx
  exact hlt

theorem over_countBytes (n : Nat) (x : Breach) (h : (m.countBytes n).2 = some x) :
    (m.countBytes n).1.Over x := by
  obtain ⟨hlt, hx⟩ := Option.ite_none_right_eq_some.mp h
  obtain rfl := Option.some.inj hx
  simp only [Over, countBytes]
  omega

theorem over_descend (x : Breach) (h : m.descend.2 = some x) : m.descend.1.Over x := by
  obtain ⟨hlt, hx⟩ := Option.ite_none_right_eq_some.mp h
  obtain rfl := Option.some.inj hx
  exact hlt

/-- A breach tells of a limit that the meter shows to be exceeded. -/
theorem over_observe {e : Event} {x : Breach} (h : (m.observe e).2 = some x) :
    (m.observe e).1.Over x := by
  rw [observe_eq] at h ⊢
  split
  · rename_i hevents
    rw [if_pos hevents] at h
    obtain rfl := Option.some.inj h
    exact hevents
  rename_i hevents
  rw [if_neg hevents] at h
  cases e with
  | scalar text style tag => exact over_andThen (over_countNode _) (over_countBytes _ _) x h
  | sequenceStart | mappingStart => exact over_andThen (over_countNode _) (over_descend _) x h
  | _ => exact nomatch h

end

theorem andThen_first {r : Meter × Option Breach} {f : Meter → Meter × Option Breach}
    (h : r.2 ≠ none) : (andThen r f).2 ≠ none := by
  obtain ⟨x, hx⟩ := Option.ne_none_iff_exists'.mp h
  simp [andThen, hx]

theorem andThen_second {r : Meter × Option Breach} {f : Meter → Meter × Option Breach}
    (h : (f r.1).2 ≠ none) : (andThen r f).2 ≠ none := by
  unfold andThen
  split
  · simp [*]
  · exact h

section
variable {m : Meter} {n : Nat}

theorem Over.countNode (h : m.Over (.nodes n)) : m.countNode.2 ≠ none := by
  have hlt : m.budget.maxNodes < m.report.nodes + 1 := Nat.lt_succ_of_lt h
  simp [Meter.countNode, hlt]

theorem Over.countBytes (h : m.Over (.scalarBytes n)) (k : Nat) : (m.countBytes k).2 ≠ none := by
  have hlt : m.budget.maxScalarBytes < min (m.report.scalarBytes + k) byteCeiling := by
    simp only [Over] at h
    omega
  simp only [Meter.countBytes, if_pos hlt, ne_eq, reduceCtorEq, not_false_eq_true]

theorem Over.descend (h : m.Over (.depth n)) : m.descend.2 ≠ none := by
  have hlt : m.budget.maxDepth < max m.report.maxDepth (m.depth + 1) :=
    Nat.lt_of_lt_of_le h (Nat.le_max_left _ _)
  simp only [Meter.descend, if_pos hlt, ne_eq, reduceCtorEq, not_false_eq_true]

end

theorem Over.countContent {m : Meter} {x : Breach} (h : m.Over x) (hx : ∀ n, x ≠ .events n)
    {e : Event} (he : x.refuses e) : (m.countContent e).2 ≠ none := by
  cases x with
  | events n => exact absurd rfl (hx n)
  | nodes n =>
    cases e with
    | scalar text style tag => exact andThen_first h.countNode
    | sequenceStart | mappingStart => exact andThen_first h.countNode
    | _ => simp [Breach.refuses, Event.isNode, Event.isScalar, Event.opensCollection] at he
  | scalarBytes n =>
    cases e with
    | scalar text style tag =>
      exact andThen_second ((h.mono m.showsLess_countNode).countBytes _)
    | _ => simp [Breach.refuses, Event.isScalar] at he
  | depth n =>
    cases e with
    | sequenceStart | mappingStart => exact andThen_second (h.mono m.showsLess_countNode).descend
    | _ => simp [Breach.refuses, Event.opensCollection] at he

/-- Where a limit is exceeded, every event that it counts is refused. -/
theorem Over.refuses {m : Meter} {x : Breach} (h : m.Over x) {e : Event} (he : x.refuses e) :
    (m.observe e).2 ≠ none := by
  rw [observe_eq]
  split
  · simp
  rename_i hevents
  refine (h.mono m.showsLess_withEvents).countContent ?_ he
  rintro n rfl
  exact hevents (Nat.lt_succ_of_lt h)

/-- Past the limit of events, an event counts as an event only. -/
theorem run_past_events {m : Meter} (h : m.budget.maxEvents < m.report.events) (es : List Event) :
    m.after es = m.withEvents es.length ∧
      m.answers es = (List.range' (m.report.events + 1) es.length).map (some ∘ .events) := by
  induction es generalizing m with
  | nil => exact ⟨rfl, rfl⟩
  | cons e es ih =>
    have hstep : m.observe e = (m.withEvents 1, some (.events (m.report.events + 1))) := by
      rw [observe_eq]
      exact if_pos (Nat.lt_succ_of_lt h)
    obtain ⟨hafter, hanswers⟩ := ih (m := m.withEvents 1) (Nat.lt_succ_of_lt h)
    constructor
    · rw [after, List.foldl_cons, hstep]
      refine hafter.trans ?_
      simp only [withEvents, List.length_cons]
      congr 2
      omega
    · rw [answers, hstep, hanswers]
      rfl

/-- A meter lets all events through exactly if what they hold is within the budget, and shows just that.
Else the first event that is refused is the first with which the events exceed a limit: of the limits they
exceed the first in the order of `breach?`, shown with the count of what they hold up to there. On a meter
that goes on after a breach, whatever it was told before, what the limit counts is refused again, and past
the limit of events nothing but events is counted. -/
theorem counts_are_exact (b : Budget) :
    (∀ es : List Event,
      ((∀ a ∈ (start b).answers es, a = none) ↔ (ofEvents es).Within b) ∧
      ((ofEvents es).Within b → (start b).after es = showing b (ofEvents es)) ∧
      (¬ (ofEvents es).Within b →
        ∃ before e rest x, es = before ++ e :: rest ∧ (ofEvents before).Within b ∧
          (ofEvents (before ++ [e])).breach? b = some x ∧ x.StepsOver b ∧
          (start b).answers es = List.replicate before.length none ++
            some x :: ((start b).after (before ++ [e])).answers rest)) ∧
    ∀ (m : Meter) (e : Event) (x : Breach), (m.observe e).2 = some x → ∀ es : List Event,
      (∀ e', x.refuses e' → (((m.observe e).1.after es).observe e').2 ≠ none) ∧
      ∀ n, x = .events n →
        (m.observe e).1.after es = (m.observe e).1.withEvents es.length ∧
          (m.observe e).1.answers es =
            (List.range' ((m.observe e).1.report.events + 1) es.length).map (some ∘ .events) := by
  refine ⟨fun es => ⟨⟨fun hall => ?_, fun h => ?_⟩, fun h => (start_within h).1, start_breach⟩, ?_⟩
  · by_contra h
    obtain ⟨before, e, rest, x, -, -, -, -, hanswers⟩ := start_breach h
    exact nomatch hall (some x) (by rw [hanswers]; simp)
  · rw [(start_within h).2]
    exact fun a ha => List.eq_of_mem_replicate ha
  · intro m e x hx es
    have hover := m.over_observe hx
    refine ⟨fun e' he' => (hover.mono (showsLess_after _ es)).refuses he', ?_⟩
    rintro n rfl
    exact run_past_events hover es

/-- Where no node is allowed the bytes of a scalar are not counted any more. -/
example :
    (start { maxNodes := 0 }).answers [.streamStart, .scalar "ab" .plain none, .documentEnd,
        .sequenceStart] = [none, some (.nodes 1), none, some (.nodes 2)] ∧
      ((start { maxNodes := 0 }).after [.scalar "ab" .plain none]).report.scalarBytes = 0 := by
  decide

end Meter
end YamlCodec
