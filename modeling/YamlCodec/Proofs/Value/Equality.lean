import Mathlib
import YamlCodec.Proofs.Value.Parts
import YamlCodec.Value.Equality

/-!
# Equality as a partial equivalence

The comparison of mappings goes through the entries of one side only. Where keys are distinct and the
numbers of entries are equal, this finds every key of the other side too, so that equal values have equal
parts in the same places, whichever side is gone through. Not-a-number is equal to nothing; all else is
equal to itself.
-/

set_option autoImplicit false

namespace YamlCodec

namespace Double

theorem equals_comm (a b : Double) : a.equals b = b.equals a := by
  unfold equals
  cases a <;> cases b <;> grind

theorem equals_trans {a b c : Double} (hab : a.equals b) (hbc : b.equals c) : a.equals c := by
  unfold equals at *
  cases a <;> cases b <;> cases c <;> grind

theorem equals_self_iff (a : Double) : a.equals a ↔ a ≠ .nan := by
  cases a <;> simp [equals]

end Double

namespace Value

/-- Both parts are there and are equal, or there is neither. -/
abbrev PartsEqual : Option Value → Option Value → Prop := Option.Rel fun x y => equals x y

theorem PartsEqual.symm {p q : Option Value} (h : PartsEqual p q)
    (hparts : ∀ x y, p = some x → q = some y → x.equals y → y.equals x) : PartsEqual q p := by
  cases h with
  | none => exact .none
  | some h => exact .some (hparts _ _ rfl rfl h)

theorem PartsEqual.trans {p q r : Option Value} (hpq : PartsEqual p q) (hqr : PartsEqual q r)
    (hparts : ∀ x y z, p = some x → q = some y → r = some z → x.equals y → y.equals z → x.equals z) :
    PartsEqual p r := by
  cases hpq with
  | none => exact hqr
  | some hxy =>
    cases hqr with
    | some hyz => exact .some (hparts _ _ _ rfl rfl rfl hxy hyz)

/-- One step of the comparison: leaves are compared, and collections have equal parts in the same
places. -/
inductive Matches : Value → Value → Prop
  | null : Matches .null .null
  | bool (b : Bool) : Matches (.bool b) (.bool b)
  | integer (i : Int64) : Matches (.integer i) (.integer i)
  | double {a b : Double} (h : a.equals b) : Matches (.double a) (.double b)
  | string (s : String) : Matches (.string s) (.string s)
  | array {xs ys : List Value}
      (h : ∀ i : Nat, PartsEqual xs[i]? ys[i]?) :
      Matches (.array xs) (.array ys)
  | object {es fs : Entries}
      (h : ∀ key, PartsEqual (es.get? key) (fs.get? key)) :
      Matches (.object es) (.object fs)

/-! ## Collections part by part -/

theorem itemsEqual_iff {xs ys : List Value} :
    itemsEqual xs ys ↔ ∀ i : Nat, PartsEqual xs[i]? ys[i]? := by
  induction xs generalizing ys with
  | nil =>
    cases ys with
    | nil => simp [itemsEqual]
    | cons y ys =>
      simp only [itemsEqual, Bool.false_eq_true, false_iff, not_forall]
      exact ⟨0, by simp⟩
  | cons x xs ih =>
    cases ys with
    | nil =>
      simp only [itemsEqual, Bool.false_eq_true, false_iff, not_forall]
      exact ⟨0, by simp⟩
    | cons y ys =>
      rw [itemsEqual, Bool.and_eq_true, ih]
      have hfirst : equals x y ↔ PartsEqual (some x) (some y) :=
        ⟨fun h => .some h, fun h => by obtain ⟨h⟩ := h; exact h⟩
      rw [hfirst]
      exact Nat.and_forall_add_one (p := fun i => PartsEqual (x :: xs)[i]? (y :: ys)[i]?)

theorem entriesWithin_eq_all (es fs : Entries) :
    entriesWithin es fs = es.all fun e =>
      match fs.get? e.1 with
      | some w => equals e.2 w
      | none => false := by
  induction es with
  | nil => rfl
  | cons e es ih =>
    obtain ⟨k, v⟩ := e
    rw [entriesWithin, ih]
    symm
    exact List.all_cons

theorem entriesWithin_iff {es fs : Entries} :
    entriesWithin es fs ↔ ∀ e ∈ es, ∃ w, fs.get? e.1 = some w ∧ equals e.2 w := by
  rw [entriesWithin_eq_all, List.all_eq_true]
  refine forall₂_congr fun e _ => ?_
  cases fs.get? e.1 with
  | none => simp
  | some w => simp

/-- Distinct keys that are all among as many others are all of these. -/
theorem entriesEqual_iff {es fs : Entries} (he : es.keys.Nodup) (hf : fs.keys.Nodup) :
    (es.length == fs.length && entriesWithin es fs) ↔
      ∀ key, PartsEqual (es.get? key) (fs.get? key) := by
  rw [Bool.and_eq_true, beq_iff_eq, entriesWithin_iff]
  have hkeys {gs : Entries} : gs.keys.length = gs.length := List.length_map _
  constructor
  · rintro ⟨hlength, hwithin⟩ key
    cases hv : es.get? key with
    | some v =>
      obtain ⟨w, hw, heq⟩ := hwithin (key, v) (Entries.mem_of_get? hv)
      rw [hw]
      exact .some heq
    | none =>
      have hsub : es.keys ⊆ fs.keys := by
        intro k hk
        obtain ⟨e, hmem, rfl⟩ := List.mem_map.mp hk
        obtain ⟨w, hw, -⟩ := hwithin e hmem
        exact Entries.mem_keys_of_get? hw
      have hperm : es.keys.Perm fs.keys :=
        (he.subperm hsub).perm_of_length_le (by rw [hkeys, hkeys, hlength])
      rw [Entries.get?_eq_none_iff, hperm.mem_iff, ← Entries.get?_eq_none_iff] at hv
      rw [hv]
      exact .none
  · intro h
    have hnone (key : String) : es.get? key = none ↔ fs.get? key = none := by
      have hkey := h key
      generalize es.get? key = v, fs.get? key = w at hkey
      cases hkey <;> simp
    have hperm : es.keys.Perm fs.keys := by
      refine (List.perm_ext_iff_of_nodup he hf).mpr fun key => ?_
      rw [← not_iff_not, ← Entries.get?_eq_none_iff, ← Entries.get?_eq_none_iff, hnone]
    refine ⟨by rw [← hkeys, ← hkeys, hperm.length_eq], fun e hmem => ?_⟩
    have hkey := h e.1
    rw [(Entries.get?_eq_some_iff he).mpr hmem] at hkey
    cases hw : fs.get? e.1 with
    | none =>
      rw [hw] at hkey
      cases hkey
    | some w =>
      rw [hw] at hkey
      obtain ⟨heq⟩ := hkey
      exact ⟨w, rfl, heq⟩

theorem matches_iff {a b : Value} (ha : a.DistinctKeys) (hb : b.DistinctKeys) :
    a.equals b ↔ Matches a b := by
  constructor
  · intro h
    unfold equals at h
    split at h
    · exact .null
    · exact beq_iff_eq.mp h ▸ .bool _
    · exact beq_iff_eq.mp h ▸ .integer _
    · exact .double h
    · exact beq_iff_eq.mp h ▸ .string _
    · exact .array (itemsEqual_iff.mp h)
    · exact .object ((entriesEqual_iff ha.1 hb.1).mp h)
    · cases h
  · intro h
    cases h with
    | null => rfl
    | bool b => simp [equals]
    | integer i => simp [equals]
    | double h => exact h
    | string s => simp [equals]
    | array h => exact itemsEqual_iff.mpr h
    | object h => exact (entriesEqual_iff ha.1 hb.1).mpr h

theorem get?_of_isLeaf {v : Value} (h : v.IsLeaf) (s : Step) : v.get? s = none := by
  cases v with
  | array _ | object _ => exact h.elim
  | _ => rfl

/-- Equal values are equal part by part. -/
theorem Matches.part {a b : Value} (h : Matches a b) (s : Step) :
    PartsEqual (a.get? s) (b.get? s) := by
  cases h with
  | array h =>
    cases s with
    | key k => exact .none
    | index i => exact h i
  | object h =>
    cases s with
    | key k => exact h k
    | index i => exact .none
  | _ => exact .none

theorem DistinctKeys.get? {v w : Value} (h : v.DistinctKeys) {s : Step} (hs : v.get? s = some w) :
    w.DistinctKeys := by
  cases v with
  | array items =>
    cases s with
    | key k => cases hs
    | index i => exact itemsDistinct_iff.mp h w (List.mem_of_getElem? hs)
  | object entries =>
    cases s with
    | key k => exact entriesDistinct_iff.mp h.2 (k, w) (Entries.mem_of_get? hs)
    | index i => cases hs
  | _ => cases hs

/-! ## Symmetry, transitivity, reflexivity -/

theorem equals_symm {a b : Value} (ha : a.DistinctKeys) (hb : b.DistinctKeys) (h : a.equals b) :
    b.equals a := by
  induction a using byParts generalizing b with
  | leaf v hv =>
    cases (matches_iff ha hb).mp h with
    | array | object => exact hv.elim
    | double h => exact (Double.equals_comm _ _).trans h
    | _ => exact h
  | array xs ih =>
    cases (matches_iff ha hb).mp h with
    | array hparts =>
      refine (matches_iff hb ha).mpr (.array fun i => (hparts i).symm fun x y hx hy hxy => ?_)
      exact ih x (List.mem_of_getElem? hx) (ha.get? (s := .index i) hx) (hb.get? (s := .index i) hy) hxy
  | object es ih =>
    cases (matches_iff ha hb).mp h with
    | object hparts =>
      refine (matches_iff hb ha).mpr (.object fun k => (hparts k).symm fun x y hx hy hxy => ?_)
      exact ih (k, x) (Entries.mem_of_get? hx) (ha.get? (s := .key k) hx) (hb.get? (s := .key k) hy) hxy

theorem equals_trans {a b c : Value} (ha : a.DistinctKeys) (hb : b.DistinctKeys)
    (hc : c.DistinctKeys) (hab : a.equals b) (hbc : b.equals c) : a.equals c := by
  induction a using byParts generalizing b c with
  | leaf v hv =>
    cases (matches_iff ha hb).mp hab with
    | array | object => exact hv.elim
    | double hxy =>
      cases (matches_iff hb hc).mp hbc with
      | double hyz => exact Double.equals_trans hxy hyz
    | _ => exact hbc
  | array xs ih =>
    cases (matches_iff ha hb).mp hab with
    | array hxy =>
      cases (matches_iff hb hc).mp hbc with
      | array hyz =>
        refine (matches_iff ha hc).mpr
          (.array fun i => (hxy i).trans (hyz i) fun x y z hx hy hz => ?_)
        exact ih x (List.mem_of_getElem? hx) (ha.get? (s := .index i) hx)
          (hb.get? (s := .index i) hy) (hc.get? (s := .index i) hz)
  | object es ih =>
    cases (matches_iff ha hb).mp hab with
    | object hxy =>
      cases (matches_iff hb hc).mp hbc with
      | object hyz =>
        refine (matches_iff ha hc).mpr
          (.object fun k => (hxy k).trans (hyz k) fun x y z hx hy hz => ?_)
        exact ih (k, x) (Entries.mem_of_get? hx) (ha.get? (s := .key k) hx)
          (hb.get? (s := .key k) hy) (hc.get? (s := .key k) hz)

theorem partsEqual_self_iff {p : Option Value} : PartsEqual p p ↔ ∀ x, p = some x → x.equals x := by
  cases p with
  | none => exact iff_of_true .none (by simp)
  | some x =>
    constructor
    · rintro ⟨h⟩ _ ⟨⟩
      exact h
    · exact fun h => .some (h x rfl)

/-- A collection is equal to itself just if each of its parts is. -/
theorem equals_self_iff_parts {v : Value} (hv : v.DistinctKeys) (hleaf : ¬ v.IsLeaf) :
    v.equals v ↔ ∀ s x, v.get? s = some x → x.equals x := by
  rw [matches_iff hv hv]
  constructor
  · exact fun h s => partsEqual_self_iff.mp (h.part s)
  · intro h
    cases v with
    | array xs => exact .array fun i => partsEqual_self_iff.mpr (h (.index i))
    | object es => exact .object fun k => partsEqual_self_iff.mpr (h (.key k))
    | _ => exact absurd trivial hleaf

/-- No path leads to a value just if the whole is another one and no path leads to it in a part. -/
theorem forall_follow?_ne_iff {v w : Value} :
    (∀ path, v.follow? path ≠ some w) ↔
      v ≠ w ∧ ∀ s x, v.get? s = some x → ∀ path, x.follow? path ≠ some w := by
  constructor
  · intro h
    refine ⟨fun heq => h [] (congrArg some heq), fun s x hx path hpath => ?_⟩
    apply h (s :: path)
    rw [follow?_cons, hx]
    exact hpath
  · rintro ⟨hne, hparts⟩ path
    cases path with
    | nil => exact fun heq => hne (Option.some.inj heq)
    | cons s path =>
      rw [follow?_cons]
      cases hx : v.get? s with
      | none => simp
      | some x => exact hparts s x hx path

theorem equals_self_leaf {v : Value} (h : v.IsLeaf) : v.equals v ↔ v ≠ .double .nan := by
  cases v with
  | array | object => exact h.elim
  | double d => simp [equals, Double.equals_self_iff]
  | _ => simp [equals]

/-- A value is equal to itself just if no path leads to not-a-number in it. -/
theorem equals_self_iff {v : Value} (hv : v.DistinctKeys) :
    v.equals v ↔ ∀ path, v.follow? path ≠ some (.double .nan) := by
  have hcollection {v : Value} (hv : v.DistinctKeys) (hleaf : ¬ v.IsLeaf)
      (ih : ∀ s x, v.get? s = some x →
        (x.equals x ↔ ∀ path, x.follow? path ≠ some (.double .nan))) :
      v.equals v ↔ ∀ path, v.follow? path ≠ some (.double .nan) := by
    have hne : v ≠ .double .nan := fun heq => hleaf (heq ▸ trivial)
    rw [equals_self_iff_parts hv hleaf, forall_follow?_ne_iff, and_iff_right hne]
    exact forall_congr' fun s => forall₂_congr fun x hx => ih s x hx
  induction v using byParts with
  | leaf v hleaf =>
    rw [equals_self_leaf hleaf, forall_follow?_ne_iff, and_iff_left]
    intro s x hx
    rw [get?_of_isLeaf hleaf] at hx
    cases hx
  | array xs ih =>
    refine hcollection hv id fun s x hx => ?_
    cases s with
    | key k => cases hx
    | index i => exact ih x (List.mem_of_getElem? hx) (hv.get? hx)
  | object es ih =>
    refine hcollection hv id fun s x hx => ?_
    cases s with
    | key k => exact ih (k, x) (Entries.mem_of_get? hx) (hv.get? hx)
    | index i => cases hx

/-! ## Order of entries -/

/-- The entries of mappings in another order, at any depth. -/
inductive Rearranged : Value → Value → Prop
  | refl (v : Value) : Rearranged v v
  | trans {a b c : Value} : Rearranged a b → Rearranged b c → Rearranged a c
  | entries {es fs : Entries} : es.Perm fs → Rearranged (.object es) (.object fs)
  | item (before : List Value) {v w : Value} (after : List Value) :
      Rearranged v w → Rearranged (.array (before ++ v :: after)) (.array (before ++ w :: after))
  | entry (before : Entries) (key : String) {v w : Value} (after : Entries) :
      Rearranged v w →
        Rearranged (.object (before ++ (key, v) :: after)) (.object (before ++ (key, w) :: after))

theorem Rearranged.distinctKeys {a b : Value} (h : Rearranged a b) (ha : a.DistinctKeys) :
    b.DistinctKeys := by
  induction h with
  | refl v => exact ha
  | trans _ _ ihab ihbc => exact ihbc (ihab ha)
  | entries hperm =>
    refine ⟨(hperm.map Prod.fst).nodup_iff.mp ha.1, entriesDistinct_iff.mpr fun e he => ?_⟩
    exact entriesDistinct_iff.mp ha.2 e (hperm.mem_iff.mpr he)
  | item before after _ ih =>
    have hparts := itemsDistinct_iff.mp ha
    refine itemsDistinct_iff.mpr ?_
    simp only [List.forall_mem_append, List.forall_mem_cons] at hparts ⊢
    exact ⟨hparts.1, ih hparts.2.1, hparts.2.2⟩
  | entry before key after _ ih =>
    have hparts := entriesDistinct_iff.mp ha.2
    refine ⟨by simpa [Entries.keys] using ha.1, entriesDistinct_iff.mpr ?_⟩
    simp only [List.forall_mem_append, List.forall_mem_cons] at hparts ⊢
    exact ⟨hparts.1, ih hparts.2.1, hparts.2.2⟩

/-- One item may be put for another in a list if both compare alike with the items of others. -/
theorem itemsEqual_exchange {v w : Value} (after : List Value) {ys : List Value}
    (h : ∀ y ∈ ys, v.equals y = w.equals y) (before : List Value) :
    itemsEqual (before ++ v :: after) ys = itemsEqual (before ++ w :: after) ys := by
  induction before generalizing ys with
  | nil =>
    cases ys with
    | nil => rfl
    | cons y ys => simp only [List.nil_append, itemsEqual, h y List.mem_cons_self]
  | cons x before ih =>
    cases ys with
    | nil => rfl
    | cons y ys =>
      simp only [List.cons_append, itemsEqual, ih fun y hy => h y (List.mem_cons_of_mem _ hy)]

/-- The order of entries on the left counts for nothing. -/
theorem Rearranged.equals_left {a b c : Value} (h : Rearranged a b) (hc : c.DistinctKeys) :
    a.equals c = b.equals c := by
  induction h generalizing c with
  | refl v => rfl
  | trans _ _ ihab ihbc => exact (ihab hc).trans (ihbc hc)
  | @entries es fs hperm =>
    cases c with
    | object gs =>
      rw [equals, equals, entriesWithin_eq_all, entriesWithin_eq_all, hperm.all_eq, hperm.length_eq]
    | _ => rfl
  | item before after _ ih =>
    cases c with
    | array ys =>
      exact itemsEqual_exchange after (fun y hy => ih (itemsDistinct_iff.mp hc y hy)) before
    | _ => rfl
  | @entry before key v w after _ ih =>
    cases c with
    | object gs =>
      simp only [equals, entriesWithin_eq_all, List.all_append, List.all_cons, List.length_append,
        List.length_cons]
      cases hw : Entries.get? gs key with
      | none => rfl
      | some x => simp only [ih (hc.get? (s := .key key) hw)]
    | _ => rfl

theorem equals_comm {a b : Value} (ha : a.DistinctKeys) (hb : b.DistinctKeys) :
    a.equals b = b.equals a :=
  Bool.eq_iff_iff.mpr ⟨equals_symm ha hb, equals_symm hb ha⟩

/-- Equal values are collections in the same places, and leaves of one kind in the same places. -/
theorem typeName_follow? {a b : Value} (ha : a.DistinctKeys) (hb : b.DistinctKeys) (h : a.equals b)
    (path : List Step) : (a.follow? path).map typeName = (b.follow? path).map typeName := by
  have hab := (matches_iff ha hb).mp h
  induction path generalizing a b with
  | nil =>
    change some a.typeName = some b.typeName
    cases hab <;> rfl
  | cons s path ih =>
    have hpart := hab.part s
    rw [follow?_cons, follow?_cons]
    generalize hx : a.get? s = p, hy : b.get? s = q at hpart
    cases hpart with
    | none => rfl
    | @some x y hxy =>
      have hx := ha.get? hx
      have hy := hb.get? hy
      exact ih hx hy hxy ((matches_iff hx hy).mp hxy)

/-- Equality is symmetric and transitive, and holds of a value and itself just if no path leads to
not-a-number. The order of entries takes no part in it. Equal values have parts of the same kinds in the
same places, and compare alike with all others. -/
theorem equality_is_partial_equivalence {a b c : Value} (ha : a.DistinctKeys) (hb : b.DistinctKeys)
    (hc : c.DistinctKeys) :
    a.equals b = b.equals a ∧
    (a.equals b → b.equals c → a.equals c) ∧
    (a.equals a ↔ ∀ path, a.follow? path ≠ some (.double .nan)) ∧
    (∀ a' b', Rearranged a a' → Rearranged b b' → a'.equals b' = a.equals b) ∧
    (a.equals b → ∀ path, (a.follow? path).map typeName = (b.follow? path).map typeName) ∧
    (a.equals b → a.equals c = b.equals c ∧ c.equals a = c.equals b) := by
  have hexchange (h : a.equals b) : a.equals c = b.equals c :=
    Bool.eq_iff_iff.mpr
      ⟨equals_trans hb ha hc (equals_symm ha hb h), equals_trans ha hb hc h⟩
  refine ⟨equals_comm ha hb, equals_trans ha hb hc, equals_self_iff ha, fun a' b' hra hrb => ?_,
    typeName_follow? ha hb, fun h => ⟨hexchange h, ?_⟩⟩
  · have ha' := hra.distinctKeys ha
    have hb' := hrb.distinctKeys hb
    calc a'.equals b' = a.equals b' := (hra.equals_left hb').symm
      _ = b'.equals a := equals_comm ha hb'
      _ = b.equals a := (hrb.equals_left ha).symm
      _ = a.equals b := equals_comm hb ha
  · rw [equals_comm hc ha, equals_comm hc hb, hexchange h]

theorem equality_is_partial_equivalence_zeros :
    let a := object [("x", integer 1), ("y", array [double (.zero false)])]
    let b := object [("y", array [double (.zero true)]), ("x", integer 1)]
    let c := object [("x", integer 1), ("y", array [double .nan])]
    (a.equals b ∧ b.equals a ∧ a.equals c = b.equals c) ∧
      ∀ a', Rearranged a a' → a'.equals b := by
  intro a b c
  have hdistinct : a.DistinctKeys ∧ b.DistinctKeys ∧ c.DistinctKeys := by
    simp [a, b, c, DistinctKeys, EntriesDistinct, ItemsDistinct, Entries.keys]
  obtain ⟨ha, hb, hc⟩ := hdistinct
  have hab : a.equals b := rfl
  obtain ⟨hcomm, -, -, hrearranged, -, hexchange⟩ := equality_is_partial_equivalence ha hb hc
  refine ⟨⟨hab, hcomm ▸ hab, (hexchange hab).1⟩, fun a' ha' => ?_⟩
  rw [hrearranged a' b ha' (.refl b), hab]

end Value
end YamlCodec
