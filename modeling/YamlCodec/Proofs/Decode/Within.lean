import YamlCodec.Proofs.Decode.Descent
import YamlCodec.Proofs.Value.Load

/-!
# What decodes under a budget

A value that decodes is that of a tree which is told by the first events of the stream, and these are
within the budget. So the load of the tree is, and what the value keeps of it.
-/

set_option autoImplicit false

namespace YamlCodec
open Decode

namespace Counts

theorem within_of_mark {c : Counts} {n d : Nat} {b : Budget} (h : (c.mark n d).Within b) :
    c.Within b :=
  ⟨Nat.le_trans (Nat.le_add_right _ n) h.events, h.nodes, h.depth, h.bytes⟩

/-- Where the events that tell a tree are within a budget, so is its load. -/
theorem bear_within {c : Counts} (hc : c.depth ≤ c.maxDepth) {b : Budget} {es : List Event} {t : Tree}
    (hk : es.filterMap Part.ofEvent? = t.kinds) (h : (c.addAll es).Within b) :
    (c.bear t.load).Within b := by
  obtain ⟨n, d, heq⟩ := addAll_kinds c es
  rw [hk] at heq
  rw [heq] at h
  rw [← addParts_tree t hc]
  exact within_of_mark h

end Counts

/-- The parts that are taken while a value is built from a supply. -/
def Decode.Supply.used (s : Supply) : List Part :=
  s.parts.take (s.parts.length - (build s.ending [] s.parts).2.length)

theorem Decode.Supply.used_eq {s : Supply} {ps : List Part}
    (h : s.parts = ps ++ (build s.ending [] s.parts).2) : s.used = ps := by
  have hlength := congrArg List.length h
  rw [List.length_append] at hlength
  rw [used, hlength, Nat.add_sub_cancel, h]
  exact List.take_left

/-- What decodes is null, the items running out without a part, or the value of the tree that the parts
taken tell; these come from the first events, which are within the budget. -/
theorem used_of_decode {items : List Item} {b : Option Budget} {v : Value}
    (h : decodeItems items b = .ok v) {s : Supply}
    (hs : Supply.ofItems (meterAt b .zero) .unknown items = s) :
    (s.parts = [] ∧ (∃ l, s.ending = .exhausted l) ∧ v = .null) ∨
      ∃ (t : Tree) (es : List Event), s.used.map Part.kind = t.kinds ∧ t.value? = some v ∧
        es.map some <+: items.map Item.event? ∧ es.filterMap Part.ofEvent? = t.kinds ∧
        (Counts.zero.addAll es).Fits b := by
  rw [decodeItems_eq, hs, Supply.value] at h
  have hbuild : build s.ending [] s.parts = (.ok v, (build s.ending [] s.parts).2) := Prod.ext h rfl
  rcases Descent.tree_of_build s.ending hbuild with ⟨hparts, _, rfl⟩ | ⟨t, used, hused, hkinds, ht⟩
  · cases hend : s.ending with
    | failed e => simp [hparts, hend, build, atEnd] at h
    | exhausted l => exact .inl ⟨hparts, ⟨l, rfl⟩, rfl⟩
  · obtain ⟨es, hpre, hes, hfits⟩ :=
      events_of_parts (Counts.zero_fits b) ((congrArg Supply.parts hs).trans hused)
    exact .inr ⟨t, es, by rw [s.used_eq hused, hkinds], ht, hpre, hes.trans hkinds, hfits⟩

/-- What decodes is null, no event telling a part, or the value of a tree told by the first events,
which are within the budget. -/
theorem tree_of_decode {items : List Item} {b : Option Budget} {v : Value}
    (h : decodeItems items b = .ok v) :
    (Item.kinds items = [] ∧ v = .null) ∨
      ∃ (t : Tree) (es : List Event), es.map some <+: items.map Item.event? ∧
        es.filterMap Part.ofEvent? = t.kinds ∧ t.value? = some v ∧ (Counts.zero.addAll es).Fits b := by
  rcases used_of_decode h rfl with ⟨hparts, ⟨l, hend⟩, hv⟩ | ⟨t, es, _, ht, hpre, hes, hfits⟩
  · have hkinds := kinds_of_exhausted hend
    rw [hparts] at hkinds
    exact .inl ⟨hkinds.symm, hv⟩
  · exact .inr ⟨t, es, hpre, hes, ht, hfits⟩

/-- What decodes nests no deeper than its budget allows. -/
theorem depth_of_decode {items : List Item} {b : Budget} {v : Value}
    (h : decodeItems items (some b) = .ok v) : v.depth ≤ b.maxDepth := by
  rcases tree_of_decode h with ⟨_, rfl⟩ | ⟨t, es, _, hes, ht, hfits⟩
  · exact Nat.zero_le _
  · have hdepth := (Counts.bear_within (Nat.le_refl 0) hes hfits).depth
    have hcovers := (Tree.load_covers t ht).depth
    rw [Value.load_depth] at hcovers
    calc v.depth ≤ t.load.depth := hcovers
      _ ≤ (Counts.zero.bear t.load).maxDepth := by simp [Counts.bear, Counts.zero]
      _ ≤ b.maxDepth := hdepth

/-- No mapping of what decodes has a key twice. -/
theorem distinct_of_decode {items : List Item} {b : Option Budget} {v : Value}
    (h : decodeItems items b = .ok v) : v.DistinctKeys := by
  rcases tree_of_decode h with ⟨_, rfl⟩ | ⟨t, _, _, _, ht, _⟩
  · trivial
  · exact Tree.value_distinct t ht

end YamlCodec
