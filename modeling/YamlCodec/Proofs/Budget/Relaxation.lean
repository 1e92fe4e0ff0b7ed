import YamlCodec.Proofs.Budget.Counts

/-!
# Relaxing a budget

Two meters with different budgets show the same counts for as long as neither has met a breach. So the
wider budget only adds parts behind those that the narrower one lets through, and an answer that did
not need them stays as it is.
-/

set_option autoImplicit false

namespace YamlCodec
open Decode

/-- No limit of the first budget is above that of the second. -/
structure Budget.AtMost (b b' : Budget) : Prop where
  events : b.maxEvents ≤ b'.maxEvents
  depth : b.maxDepth ≤ b'.maxDepth
  nodes : b.maxNodes ≤ b'.maxNodes
  bytes : b.maxScalarBytes ≤ b'.maxScalarBytes

/-- The second budget is the first one or a wider one; the widest is to have none. -/
def Relaxed : Option Budget → Option Budget → Prop
  | _, none => True
  | none, some _ => False
  | some b, some b' => b.AtMost b'

theorem Counts.Within.relaxed {c : Counts} {b b' : Budget} (hc : c.Within b) (h : b.AtMost b') :
    c.Within b' where
  events := Nat.le_trans hc.events h.events
  nodes := Nat.le_trans hc.nodes h.nodes
  depth := Nat.le_trans hc.depth h.depth
  bytes := Nat.le_trans hc.bytes h.bytes

theorem Counts.Fits.relaxed {c : Counts} {b b' : Option Budget} (hc : c.Fits b)
    (h : Relaxed b b') : c.Fits b' := by
  match b, b' with
  | _, none => trivial
  | some _, some _ => exact Counts.Within.relaxed hc h

section
variable {b b' : Option Budget} (h : Relaxed b b')
include h

/-- Under the wider budget the supply is the same, or it goes on where the other one met a breach. -/
theorem ofItems_relaxed {c : Counts} (hc : c.Fits b) (last : Location) (items : List Item) :
    Supply.ofItems (meterAt b' c) last items = Supply.ofItems (meterAt b c) last items ∨
      ∃ x l more, (Supply.ofItems (meterAt b c) last items).ending = .failed (.overBudget x l) ∧
        (Supply.ofItems (meterAt b' c) last items).parts =
          (Supply.ofItems (meterAt b c) last items).parts ++ more := by
  induction items generalizing c last with
  | nil => exact .inl rfl
  | cons item items ih =>
    cases item with
    | fault f mark => exact .inl rfl
    | event e mark =>
      by_cases hfits : (c.add e).Fits b
      · rw [ofItems_fits hfits, ofItems_fits (hfits.relaxed h)]
        rcases ih hfits (.ofMark mark) with heq | ⟨x, l, more, hend, hparts⟩
        · rw [heq]
          exact .inl rfl
        · refine .inr ⟨x, l, more, by rw [cons_ending, hend], ?_⟩
          cases Part.ofEvent? e with
          | none => exact hparts
          | some k => exact congrArg (List.cons _) hparts
      · obtain ⟨x, hx⟩ := ofItems_breach hc hfits last mark items
        rw [hx]
        exact .inr ⟨x, .ofMark mark, _, rfl, rfl⟩

theorem decodeItems_relaxed (items : List Item) (hn : ¬ OverBudget (decodeItems items b)) :
    decodeItems items b' = decodeItems items b := by
  rw [decodeItems_eq] at hn ⊢
  rw [decodeItems_eq]
  rcases ofItems_relaxed h (Counts.zero_fits b) .unknown items with heq | ⟨x, l, more, hend, hparts⟩
  · rw [heq]
  · rw [Supply.value, Supply.value, hparts]
    rw [Supply.value] at hn
    generalize (Supply.ofItems (meterAt b .zero) .unknown items).parts = parts at hn
    cases hs : stackAfter? [] parts with
    | none =>
      obtain ⟨r, left, _, hb⟩ := build_settled hs
      have hshort := hb (Supply.ofItems (meterAt b .zero) .unknown items).ending []
      rw [List.append_nil] at hshort
      rw [hb, hshort]
    | some stack =>
      -- all parts are used, so the narrower budget's breach is the outcome
      have hshort := build_append hs (.failed (.overBudget x l)) []
      rw [List.append_nil] at hshort
      rw [hend, hshort] at hn
      exact absurd ⟨x, l, rfl⟩ hn

end

/-- What decoding makes of items and texts under a budget it makes of them under any wider one, unless
it is a breach; so a breach under the wider budget is one under the narrower. -/
theorem relaxing_keeps_answers (b b' : Option Budget) (h : Relaxed b b') :
    (∀ items, (¬ OverBudget (decodeItems items b) →
        decodeItems items b' = decodeItems items b) ∧
      (OverBudget (decodeItems items b') → OverBudget (decodeItems items b))) ∧
    ∀ text, (¬ OverBudget (decode text b) → decode text b' = decode text b) ∧
      (OverBudget (decode text b') → OverBudget (decode text b)) := by
  have hitems (items : List Item) : (¬ OverBudget (decodeItems items b) →
      decodeItems items b' = decodeItems items b) ∧
      (OverBudget (decodeItems items b') → OverBudget (decodeItems items b)) := by
    refine ⟨decodeItems_relaxed h items, fun hover => Classical.byContradiction fun hn => ?_⟩
    rw [decodeItems_relaxed h items hn] at hover
    exact hn hover
  exact ⟨hitems, fun text => hitems (Event.read text)⟩

theorem relaxing_keeps_answers_flow :
    Relaxed (some { maxNodes := 3 }) (some { maxNodes := 4 }) ∧
      ¬ OverBudget (decode "[1, *]" (some { maxNodes := 3 })) ∧
      decode "[1, *]" (some { maxNodes := 4 }) = decode "[1, *]" (some { maxNodes := 3 }) := by
  have hrelaxed : Relaxed (some { maxNodes := 3 }) (some { maxNodes := 4 }) := by
    constructor <;> decide
  have hwithin : ¬ OverBudget (decode "[1, *]" (some { maxNodes := 3 })) := by decide +kernel
  exact ⟨hrelaxed, hwithin, ((relaxing_keeps_answers _ _ hrelaxed).2 "[1, *]").1 hwithin⟩

end YamlCodec
