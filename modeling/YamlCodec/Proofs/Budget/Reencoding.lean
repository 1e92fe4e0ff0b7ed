import YamlCodec.Proofs.Decode.Text
import YamlCodec.Proofs.Decode.Within
import YamlCodec.Proofs.Event.Opening
import YamlCodec.Proofs.Value.Column
import YamlCodec.Proofs.Value.Walk

/-!
# Encoding again what was decoded

A decoded value is encoded, and its text decodes to it without a budget. Under the budget it was decoded
with, the text is measured anew: an alias has become a node, and a leaf that was spelled short is written
in full. The nesting and the events never break a limit that way; the nodes and the bytes may.
-/

set_option autoImplicit false

namespace YamlCodec
open Decode

namespace Value

mutual

/-- The load of a value is that of the tree that is read where it was written. -/
theorem load_tree (v : Value) : (v.node.tree true).load = v.load := by
  match v with
  | null | bool true | bool false | integer _ | double _ | string _ => rfl
  | array [] => rfl
  | array (v :: rest) =>
    rw [node, itemNodes, Writer.Node.tree, ← itemNodes, Tree.load, itemLoad_trees (v :: rest), load]
  | object [] => rfl
  | object (e :: rest) =>
    obtain ⟨k, v⟩ := e
    rw [node, entryNodes, Writer.Node.tree, ← entryNodes, Tree.load,
      entryLoad_trees ((k, v) :: rest), load]

theorem itemLoad_trees (items : List Value) :
    Tree.itemLoad (Writer.Node.itemTrees true (itemNodes items)) = itemLoad items := by
  match items with
  | [] => rfl
  | v :: rest =>
    rw [itemNodes, Writer.Node.itemTrees, Tree.itemLoad, load_tree v, itemLoad_trees rest, itemLoad]

theorem entryLoad_trees (entries : List (String × Value)) :
    Tree.entryLoad (Writer.Node.entryTrees true (entryNodes entries)) = entryLoad entries := by
  match entries with
  | [] => rfl
  | (k, v) :: rest =>
    rw [entryNodes, Writer.Node.entryTrees, Tree.entryLoad, load_tree v, entryLoad_trees rest,
      entryLoad]
    rfl

end

/-- The text of a value decodes to it under just those budgets that its load is within. -/
theorem decode_written (v : Value) (hv : v.DistinctKeys) {o : WriterOptions}
    (hbraces : o.emptyAsBraces = true) :
    decode (String.ofList (v.node.text o)) none = .ok v ∧ ∀ b : Budget,
      ((Counts.opened.bear v.load).Within b →
        decode (String.ofList (v.node.text o)) (some b) = .ok v) ∧
      (¬ (Counts.opened.bear v.load).Within b →
        OverBudget (decode (String.ofList (v.node.text o)) (some b))) := by
  have hvalue := v.tree_value o.emptyAsBraces hv
  rw [if_pos hbraces] at hvalue
  refine ⟨decode_text o v.node hvalue, fun b => ⟨fun h => ?_, fun h => ?_⟩⟩
  · refine decode_text_fits o v.node hvalue ?_
    rw [hbraces, load_tree]
    exact h
  · refine decode_text_over o v.node hvalue ?_ ?_
    · rw [hbraces]
      exact v.node.tokens_bracketed
    · rw [hbraces, load_tree]
      exact h

end Value

/-- A load that is covered may break the limits on nodes and on bytes only. -/
theorem Load.Covers.within_iff {a l : Load} (h : a.Covers l) {b : Budget}
    (ha : (Counts.opened.bear a).Within b) :
    (Counts.opened.bear l).Within b ↔
      l.nodes ≤ b.maxNodes ∧ min l.bytes Meter.byteCeiling ≤ b.maxScalarBytes := by
  have hzero : Counts.opened.nodes = 0 ∧ Counts.opened.bytes = 0 := ⟨rfl, rfl⟩
  constructor
  · intro hl
    obtain ⟨_, hn, _, hb⟩ := hl
    simp only [Counts.bear, hzero, Nat.zero_add] at hn hb
    exact ⟨hn, hb⟩
  · rintro ⟨hn, hb⟩
    obtain ⟨he, _, hd⟩ := h
    obtain ⟨hae, _, had, _⟩ := ha
    constructor <;> simp only [Counts.bear, hzero, Nat.zero_add] at * <;> omega

/-- Without aliases and with no more bytes it breaks none. -/
theorem Load.Covers.within {a l : Load} (h : a.Covers l) (haliases : a.aliases = 0)
    (hbytes : l.bytes ≤ a.bytes) {b : Budget} (ha : (Counts.opened.bear a).Within b) :
    (Counts.opened.bear l).Within b := by
  obtain ⟨hn, hb⟩ := ((Load.Covers.refl a).within_iff ha).mp ha
  have hnodes := h.nodes
  exact (h.within_iff ha).mpr ⟨by omega, by omega⟩

/-- A text that decodes has no node, or begins with a tree whose load is within the budget. -/
theorem opened_of_decode {s : String} {b : Budget} {v : Value} (h : decode s (some b) = .ok v) :
    (Item.kinds (Event.read s) = [] ∧ v = .null) ∨
      ∃ t : Tree, t.kinds <+: Item.kinds (Event.read s) ∧ t.value? = some v ∧
        (Counts.opened.bear t.load).Within b := by
  rcases tree_of_decode h with hnone | ⟨t, es, hpre, hkinds, ht, hfits⟩
  · exact .inl hnone
  · have hne : es.filterMap Part.ofEvent? ≠ [] := by
      rw [hkinds]
      exact t.kinds_ne_nil
    obtain ⟨rest, rfl⟩ := Event.Reader.opened_of_yields hpre hne
    have hrest : rest.filterMap Part.ofEvent? = t.kinds := hkinds
    have hwithin : (Counts.opened.addAll rest).Within b := hfits
    exact .inr ⟨t, hkinds ▸ Item.kinds_prefix hpre, ht,
      Counts.bear_within (Nat.le_refl 0) hrest hwithin⟩

/-- What was decoded under a budget is encoded, if words hold two columns for each level of its nesting,
and its text decodes to it again without a budget. Under the same budget the text decodes to it just if its
own load is within the limits, and else breaks one of them. The tree it was decoded from covers that load,
so that only the nodes, of which an alias has become one more, and the bytes of what was spelled shorter
can break a limit. -/
theorem reencoding_keeps_values (s : String) (b : Budget) (v : Value)
    (h : decode s (some b) = .ok v) :
    ∃ t, (∀ limit : Option Nat, (∀ columns ∈ limit, v.depth * 2 < columns) →
        encode v { maxDepth := b.maxDepth, columnLimit := limit } = .ok t) ∧
      decode t none = .ok v ∧
      (decode t (some b) = .ok v ↔ (Counts.opened.bear v.load).Within b) ∧
      (decode t (some b) = .ok v ∨ OverBudget (decode t (some b))) ∧
      ((Item.kinds (Event.read s) = [] ∧ v = .null) ∨
        ∃ tree : Tree, tree.kinds <+: Item.kinds (Event.read s) ∧ tree.value? = some v ∧
          tree.load.Covers v.load ∧
          (decode t (some b) = .ok v ↔ v.load.nodes ≤ b.maxNodes ∧
            min v.load.bytes Meter.byteCeiling ≤ b.maxScalarBytes) ∧
          (tree.load.aliases = 0 → v.load.bytes ≤ tree.load.bytes → decode t (some b) = .ok v)) := by
  have hdepth := depth_of_decode h
  let o : WriterOptions := { maxDepth := b.maxDepth, columnLimit := none }
  let t := String.ofList (v.node.text o)
  have ht (limit : Option Nat) (hlimit : ∀ columns ∈ limit, v.depth * 2 < columns) :
      encode v { maxDepth := b.maxDepth, columnLimit := limit } = .ok t := by
    refine (encode_of_layout (layout_holds fun columns hc => ?_)).trans
      (v.encode_eq o (Nat.le_succ 1) hdepth)
    have hle : min b.maxDepth v.depth * 2 ≤ v.depth * 2 := Nat.mul_le_mul_right 2 (Nat.min_le_right _ _)
    exact Nat.lt_of_le_of_lt hle (hlimit columns hc)
  obtain ⟨hnone, hb⟩ := v.decode_written (distinct_of_decode h) (o := o) rfl
  obtain ⟨hwithin, hover⟩ := hb b
  have hiff : decode t (some b) = .ok v ↔ (Counts.opened.bear v.load).Within b := by
    refine ⟨fun hok => Classical.byContradiction fun hn => ?_, hwithin⟩
    obtain ⟨x, l, he⟩ := hover hn
    rw [hok] at he
    simp at he
  refine ⟨t, ht, hnone, hiff, ?_, ?_⟩
  · by_cases hfits : (Counts.opened.bear v.load).Within b
    · exact .inl (hwithin hfits)
    · exact .inr (hover hfits)
  · refine (opened_of_decode h).imp_right fun ⟨tree, hpre, hvalue, htree⟩ => ?_
    have hcovers := tree.load_covers hvalue
    exact ⟨tree, hpre, hvalue, hcovers, hiff.trans (hcovers.within_iff htree),
      fun haliases hbytes => hwithin (hcovers.within haliases hbytes htree)⟩

theorem reencoding_keeps_values_null :
    decode "~" (some { maxScalarBytes := 1 }) = .ok .null ∧
      ∃ t, encode .null = .ok t ∧ decode t none = .ok .null ∧
        OverBudget (decode t (some { maxScalarBytes := 1 })) := by
  have hread : decode "~" (some { maxScalarBytes := 1 }) = .ok .null := by cbv
  obtain ⟨t, ht, hnone, hiff, hone, _⟩ := reencoding_keeps_values _ _ _ hread
  have hover : ¬ (Counts.opened.bear Value.null.load).Within { maxScalarBytes := 1 } := by decide
  exact ⟨hread, t, ht _ (by decide), hnone, hone.resolve_left fun hok => hover (hiff.mp hok)⟩

/-- An alias that was free of charge is a node where its value is written: a list of two leaves, of which
one is an alias, decodes under a limit of two nodes, and what is written for it does not. -/
theorem reencoding_breaks_nodes :
    (decode "[&a x, *a]" (some { maxNodes := 2 })).isOk = true ∧
      OverBudget (do
        let v ← decode "[&a x, *a]" (some { maxNodes := 2 })
        let text ← encode v
        decode text (some { maxNodes := 2 })) := by
  decide +kernel

end YamlCodec
