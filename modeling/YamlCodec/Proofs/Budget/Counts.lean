import YamlCodec.Proofs.Decode.Run
import YamlCodec.Decode.Text

/-!
# Exact counts of events

The counts of events as numbers without a limit. A meter shows these counts for as long as they are
within its budget, and the first event that takes them out of it is a breach. So the parts of items are
those of the events within the budget.
-/

set_option autoImplicit false

namespace YamlCodec

/-- Decoding failed for a limit. -/
def OverBudget (r : Except Error Value) : Prop := ∃ x l, r = .error (.overBudget x l)

instance : DecidablePred OverBudget
  | .error (.overBudget x l) => isTrue ⟨x, l, rfl⟩
  | .ok _ | .error (.malformed _ _) | .error (.endOfInput _) | .error (.unexpected _ _)
  | .error (.refused _) | .error .sinkFull | .error (.invalidArgument _) =>
    isFalse fun ⟨_, _, h⟩ => nomatch h

/-- The counts of events, their present nesting and the deepest so far. -/
structure Counts where
  events : Nat
  aliases : Nat
  documents : Nat
  nodes : Nat
  depth : Nat
  maxDepth : Nat
  bytes : Nat
  deriving DecidableEq

namespace Counts

def zero : Counts := ⟨0, 0, 0, 0, 0, 0, 0⟩

def add (c : Counts) (e : Event) : Counts :=
  let c := { c with events := c.events + 1 }
  match e with
  | .streamStart | .streamEnd | .documentEnd | .nothing => c
  | .documentStart => { c with documents := c.documents + 1 }
  | .alias => { c with aliases := c.aliases + 1 }
  | .scalar text _ _ => { c with nodes := c.nodes + 1, bytes := c.bytes + text.utf8ByteSize }
  | .sequenceStart | .mappingStart =>
    { c with nodes := c.nodes + 1, depth := c.depth + 1, maxDepth := max c.maxDepth (c.depth + 1) }
  | .sequenceEnd | .mappingEnd => { c with depth := c.depth - 1 }

def addAll (c : Counts) (es : List Event) : Counts := es.foldl add c

@[simp] theorem addAll_nil (c : Counts) : c.addAll [] = c := rfl

@[simp] theorem addAll_cons (c : Counts) (e : Event) (es : List Event) :
    c.addAll (e :: es) = (c.add e).addAll es := rfl

theorem addAll_append (c : Counts) (es fs : List Event) :
    c.addAll (es ++ fs) = (c.addAll es).addAll fs := List.foldl_append

/-- The counts break no limit. Bytes are compared as they are shown, no higher than the ceiling. -/
structure Within (c : Counts) (b : Budget) : Prop where
  events : c.events ≤ b.maxEvents
  nodes : c.nodes ≤ b.maxNodes
  depth : c.maxDepth ≤ b.maxDepth
  bytes : min c.bytes Meter.byteCeiling ≤ b.maxScalarBytes

theorem zero_within (b : Budget) : zero.Within b :=
  ⟨Nat.zero_le _, Nat.zero_le _, Nat.zero_le _, by simp [zero]⟩

instance (c : Counts) (b : Budget) : Decidable (c.Within b) :=
  decidable_of_iff
    (c.events ≤ b.maxEvents ∧ c.nodes ≤ b.maxNodes ∧ c.maxDepth ≤ b.maxDepth ∧
      min c.bytes Meter.byteCeiling ≤ b.maxScalarBytes)
    ⟨fun h => ⟨h.1, h.2.1, h.2.2.1, h.2.2.2⟩, fun h => ⟨h.events, h.nodes, h.depth, h.bytes⟩⟩

/-- The first limit that the counts exceed, in the order in which limits are looked at, with the count
that is shown for it. -/
def breach? (c : Counts) (b : Budget) : Option Breach :=
  if b.maxEvents < c.events then some (.events c.events)
  else if b.maxNodes < c.nodes then some (.nodes c.nodes)
  else if b.maxScalarBytes < min c.bytes Meter.byteCeiling then
    some (.scalarBytes (min c.bytes Meter.byteCeiling))
  else if b.maxDepth < c.maxDepth then some (.depth c.maxDepth)
  else none

section
variable {c : Counts} {b : Budget}

theorem breach?_events (h : b.maxEvents < c.events) : c.breach? b = some (.events c.events) :=
  if_pos h

theorem breach?_nodes (he : c.events ≤ b.maxEvents) (h : b.maxNodes < c.nodes) :
    c.breach? b = some (.nodes c.nodes) := by
  rw [breach?, if_neg (Nat.not_lt.mpr he), if_pos h]

theorem breach?_scalarBytes (he : c.events ≤ b.maxEvents) (hn : c.nodes ≤ b.maxNodes)
    (h : b.maxScalarBytes < min c.bytes Meter.byteCeiling) :
    c.breach? b = some (.scalarBytes (min c.bytes Meter.byteCeiling)) := by
  rw [breach?, if_neg (Nat.not_lt.mpr he), if_neg (Nat.not_lt.mpr hn), if_pos h]

theorem breach?_depth (he : c.events ≤ b.maxEvents) (hn : c.nodes ≤ b.maxNodes)
    (hb : min c.bytes Meter.byteCeiling ≤ b.maxScalarBytes) (h : b.maxDepth < c.maxDepth) :
    c.breach? b = some (.depth c.maxDepth) := by
  rw [breach?, if_neg (Nat.not_lt.mpr he), if_neg (Nat.not_lt.mpr hn), if_neg (Nat.not_lt.mpr hb),
    if_pos h]

theorem breach?_none_iff : c.breach? b = none ↔ c.Within b := by
  constructor
  · intro h
    have he := Nat.le_of_not_lt fun hlt => nomatch h.symm.trans (breach?_events hlt)
    have hn := Nat.le_of_not_lt fun hlt => nomatch h.symm.trans (breach?_nodes he hlt)
    have hb := Nat.le_of_not_lt fun hlt => nomatch h.symm.trans (breach?_scalarBytes he hn hlt)
    have hd := Nat.le_of_not_lt fun hlt => nomatch h.symm.trans (breach?_depth he hn hb hlt)
    exact ⟨he, hn, hd, hb⟩
  · rintro ⟨he, hn, hd, hb⟩
    rw [breach?, if_neg (Nat.not_lt.mpr he), if_neg (Nat.not_lt.mpr hn), if_neg (Nat.not_lt.mpr hb),
      if_neg (Nat.not_lt.mpr hd)]

end

theorem add_events (c : Counts) (e : Event) : (c.add e).events = c.events + 1 := by
  cases e <;> rfl

/-- Counts only grow, but for the present nesting. -/
theorem within_of_add {c : Counts} {b : Budget} {e : Event} (h : (c.add e).Within b) :
    c.Within b := by
  obtain ⟨he, hn, hd, hb⟩ := h
  constructor <;> cases e <;> simp only [add] at he hn hd hb <;> omega

theorem within_of_addAll {c : Counts} {b : Budget} {es : List Event}
    (h : (c.addAll es).Within b) : c.Within b := by
  induction es generalizing c with
  | nil => exact h
  | cons e es ih => exact within_of_add (ih h)

/-- The counts are within a budget if there is one. -/
def Fits (c : Counts) : Option Budget → Prop
  | none => True
  | some b => c.Within b

theorem zero_fits (b : Option Budget) : zero.Fits b := by
  cases b with
  | none => trivial
  | some b => exact zero_within b

theorem fits_of_addAll {c : Counts} {b : Option Budget} {es : List Event}
    (h : (c.addAll es).Fits b) : c.Fits b := by
  cases b with
  | none => trivial
  | some b => exact within_of_addAll h

/-- Events that take counts out of a budget have a first one that does. -/
theorem first_breach {c : Counts} {b : Option Budget} {es : List Event} (hc : c.Fits b)
    (h : ¬ (c.addAll es).Fits b) :
    ∃ before e after, es = before ++ e :: after ∧ (c.addAll before).Fits b ∧
      ¬ ((c.addAll before).add e).Fits b := by
  induction es generalizing c with
  | nil => exact absurd hc h
  | cons e es ih =>
    by_cases he : (c.add e).Fits b
    · obtain ⟨before, e', after, rfl, hbefore, hafter⟩ := ih he h
      exact ⟨e :: before, e', after, rfl, hbefore, hafter⟩
    · exact ⟨[], e, es, rfl, hc, he⟩

end Counts

namespace Meter
open Counts

/-- A meter that has broken no limit and shows these counts. -/
def showing (b : Budget) (c : Counts) : Meter :=
  ⟨b, ⟨none, c.events, c.aliases, c.documents, c.nodes, c.maxDepth, min c.bytes byteCeiling⟩,
    c.depth⟩

theorem countNode_showing (b : Budget) (c : Counts) :
    (showing b c).countNode =
      (showing b { c with nodes := c.nodes + 1 },
        if b.maxNodes < c.nodes + 1 then some (.nodes (c.nodes + 1)) else none) := rfl

theorem countBytes_showing (b : Budget) (c : Counts) (n : Nat) :
    (showing b c).countBytes n =
      (showing b { c with bytes := c.bytes + n },
        if b.maxScalarBytes < min (c.bytes + n) byteCeiling then
          some (.scalarBytes (min (c.bytes + n) byteCeiling)) else none) := by
  -- bytes that were cut off at the ceiling before do not count again
  have hmin : min (min c.bytes byteCeiling + n) byteCeiling = min (c.bytes + n) byteCeiling := by
    omega
  simp only [countBytes, showing, hmin]

theorem descend_showing (b : Budget) (c : Counts) :
    (showing b c).descend =
      (showing b { c with depth := c.depth + 1, maxDepth := max c.maxDepth (c.depth + 1) },
        if b.maxDepth < max c.maxDepth (c.depth + 1) then
          some (.depth (max c.maxDepth (c.depth + 1))) else none) := rfl

theorem observe_showing (b : Budget) (c : Counts) (e : Event) :
    (showing b c).observe e =
      if b.maxEvents < c.events + 1 then
        (showing b { c with events := c.events + 1 }, some (.events (c.events + 1)))
      else (showing b { c with events := c.events + 1 }).countContent e := rfl

/-- An event that keeps the counts within the budget is counted. -/
theorem observe_within {b : Budget} {c : Counts} {e : Event} (h : (c.add e).Within b) :
    (showing b c).observe e = (showing b (c.add e), none) := by
  obtain ⟨he, hn, hd, hb⟩ := h
  have hevents : ¬ b.maxEvents < c.events + 1 := by
    cases e <;> simp only [Counts.add] at he <;> omega
  rw [observe_showing, if_neg hevents]
  cases e with
  | scalar text style tag =>
    have hnodes : ¬ b.maxNodes < c.nodes + 1 := Nat.not_lt.mpr hn
    have hbytes : ¬ b.maxScalarBytes < min (c.bytes + text.utf8ByteSize) byteCeiling :=
      Nat.not_lt.mpr hb
    simp only [countContent, countNode_showing, if_neg hnodes, andThen, countBytes_showing,
      if_neg hbytes]
    rfl
  | sequenceStart | mappingStart =>
    have hnodes : ¬ b.maxNodes < c.nodes + 1 := Nat.not_lt.mpr hn
    have hdepth : ¬ b.maxDepth < max c.maxDepth (c.depth + 1) := Nat.not_lt.mpr hd
    simp only [countContent, countNode_showing, if_neg hnodes, andThen, descend_showing,
      if_neg hdepth]
    rfl
  | _ => rfl

/-- The answer to an event names the first limit that the counts with it exceed. -/
theorem observe_answer {b : Budget} {c : Counts} (hc : c.Within b) (e : Event) :
    ((showing b c).observe e).2 = (c.add e).breach? b := by
  obtain ⟨he, hn, hd, hb⟩ := hc
  rw [observe_showing]
  by_cases hevents : b.maxEvents < c.events + 1
  · rw [if_pos hevents, breach?_events (by rwa [add_events]), add_events]
  rw [if_neg hevents]
  have hle : (c.add e).events ≤ b.maxEvents := by
    rw [add_events]
    exact Nat.le_of_not_lt hevents
  cases e with
  | scalar text style tag =>
    simp only [countContent, countNode_showing]
    by_cases hnodes : b.maxNodes < c.nodes + 1
    · rw [if_pos hnodes]
      exact (breach?_nodes hle hnodes).symm
    simp only [if_neg hnodes, andThen, countBytes_showing]
    split
    · rename_i hbytes
      exact (breach?_scalarBytes hle (Nat.le_of_not_lt hnodes) hbytes).symm
    · rename_i hbytes
      exact (breach?_none_iff.mpr
        ⟨hle, Nat.le_of_not_lt hnodes, hd, Nat.le_of_not_lt hbytes⟩).symm
  | sequenceStart | mappingStart =>
    simp only [countContent, countNode_showing]
    by_cases hnodes : b.maxNodes < c.nodes + 1
    · rw [if_pos hnodes]
      exact (breach?_nodes hle hnodes).symm
    simp only [if_neg hnodes, andThen, descend_showing]
    split
    · rename_i hdepth
      exact (breach?_depth hle (Nat.le_of_not_lt hnodes) hb hdepth).symm
    · rename_i hdepth
      exact (breach?_none_iff.mpr
        ⟨hle, Nat.le_of_not_lt hnodes, Nat.le_of_not_lt hdepth, hb⟩).symm
  | _ => exact (breach?_none_iff.mpr ⟨hle, hn, hd, hb⟩).symm

/-- An event that takes the counts out of the budget is a breach. -/
theorem observe_breach {b : Budget} {c : Counts} {e : Event} (hc : c.Within b)
    (h : ¬ (c.add e).Within b) : ∃ x, ((showing b c).observe e).2 = some x := by
  rw [observe_answer hc]
  exact Option.ne_none_iff_exists'.mp fun hnone => h (breach?_none_iff.mp hnone)

end Meter

namespace Decode
open Counts

/-- The meter of a budget, if there is one, that shows these counts. -/
def meterAt (b : Option Budget) (c : Counts) : Option Meter := b.map (Meter.showing · c)

section
variable {b : Option Budget} {c : Counts}

theorem ofItems_fits {e : Event} (h : (c.add e).Fits b) (last : Location) (mark : Source.Mark)
    (items : List Item) :
    Supply.ofItems (meterAt b c) last (.event e mark :: items) =
      (Supply.ofItems (meterAt b (c.add e)) (.ofMark mark) items).cons (Part.ofEvent? e)
        (.ofMark mark) := by
  cases b with
  | none => rfl
  | some b =>
    rw [Supply.ofItems]
    simp only [meterAt, Option.map_some, meter, Meter.observe_within h]

theorem ofItems_breach {e : Event} (hc : c.Fits b) (h : ¬ (c.add e).Fits b) (last : Location)
    (mark : Source.Mark) (items : List Item) :
    ∃ x, Supply.ofItems (meterAt b c) last (.event e mark :: items) =
      ⟨[], .failed (.overBudget x (.ofMark mark))⟩ := by
  cases b with
  | none => exact absurd trivial h
  | some b =>
    obtain ⟨x, hx⟩ := Meter.observe_breach hc h
    refine ⟨x, ?_⟩
    rw [Supply.ofItems]
    simp only [meterAt, Option.map_some, meter, hx]

/-- Items whose events are within the budget are let through, and what comes after them is counted on
from there. -/
theorem ofItems_run {items : List Item} {es : List Event}
    (hitems : items.map Item.event? = es.map some) (hfits : (c.addAll es).Fits b) (last : Location) :
    ∃ (parts : List Part) (last' : Location), parts.map Part.kind = es.filterMap Part.ofEvent? ∧
      ∀ more, Supply.ofItems (meterAt b c) last (items ++ more) =
        ⟨parts ++ (Supply.ofItems (meterAt b (c.addAll es)) last' more).parts,
          (Supply.ofItems (meterAt b (c.addAll es)) last' more).ending⟩ := by
  induction items generalizing c last es with
  | nil =>
    obtain rfl := List.map_eq_nil_iff.mp hitems.symm
    exact ⟨[], last, rfl, fun more => rfl⟩
  | cons item items ih =>
    cases es with
    | nil => simp at hitems
    | cons e es =>
      obtain ⟨hitem, hrest⟩ := List.cons.inj hitems
      cases item with
      | fault f mark => simp [Item.event?] at hitem
      | event e' mark =>
        obtain rfl : e' = e := Option.some.inj hitem
        obtain ⟨parts, last', hparts, hsupply⟩ := ih hrest hfits (.ofMark mark)
        have hstep (more : List Item) := ofItems_fits (fits_of_addAll hfits) last mark (items ++ more)
        cases hk : Part.ofEvent? e' with
        | none =>
          refine ⟨parts, last', by rw [hparts, List.filterMap_cons, hk], fun more => ?_⟩
          rw [List.cons_append, hstep, hsupply, hk]
          rfl
        | some k =>
          refine ⟨⟨k, .ofMark mark⟩ :: parts, last', ?_, fun more => ?_⟩
          · rw [List.map_cons, hparts, List.filterMap_cons, hk]
          · rw [List.cons_append, hstep, hsupply, hk]
            rfl

/-- The parts of a supply come from events that are within the budget. -/
theorem events_of_parts (hc : c.Fits b) {last : Location} {items : List Item}
    {parts rest : List Part} (h : (Supply.ofItems (meterAt b c) last items).parts = parts ++ rest) :
    ∃ es : List Event, es.map some <+: items.map Item.event? ∧
      es.filterMap Part.ofEvent? = parts.map Part.kind ∧ (c.addAll es).Fits b := by
  induction items generalizing c last parts with
  | nil =>
    obtain ⟨rfl, _⟩ := List.append_eq_nil_iff.mp h.symm
    exact ⟨[], List.nil_prefix, rfl, hc⟩
  | cons item items ih =>
    match parts with
    | [] => exact ⟨[], List.nil_prefix, rfl, hc⟩
    | p :: parts =>
      cases item with
      | fault f mark => simp [Supply.ofItems] at h
      | event e mark =>
        by_cases hfits : (c.add e).Fits b
        · rw [ofItems_fits hfits] at h
          cases hk : Part.ofEvent? e with
          | none =>
            rw [hk] at h
            obtain ⟨es, hpre, hkinds, hes⟩ := ih hfits h
            exact ⟨e :: es, List.cons_prefix_cons.mpr ⟨rfl, hpre⟩, by simp [hk, hkinds], hes⟩
          | some k =>
            rw [hk] at h
            obtain ⟨rfl, hrest⟩ := List.cons.inj h
            obtain ⟨es, hpre, hkinds, hes⟩ := ih hfits hrest
            exact ⟨e :: es, List.cons_prefix_cons.mpr ⟨rfl, hpre⟩, by simp [hk, hkinds], hes⟩
        · obtain ⟨x, hx⟩ := ofItems_breach hc hfits last mark items
          rw [hx] at h
          simp at h

end

theorem decodeItems_eq (items : List Item) (b : Option Budget) :
    decodeItems items b = (Supply.ofItems (meterAt b .zero) .unknown items).value := rfl

end Decode
end YamlCodec
