import YamlCodec.Proofs.Value.Parts

/-!
# Values without doubles that are not finite

What is left of a value where such doubles are taken for null: the same collections with the same keys in
the same order, and the same leaves but for these doubles.
-/

set_option autoImplicit false

namespace YamlCodec.Value

/-- Every double that a path leads to is finite. -/
def AllFinite (v : Value) : Prop :=
  ∀ path d, v.follow? path = some (.double d) → ∃ negative code, d = .finite negative code

/-- The double if it is finite, and null otherwise. -/
def ofFinite : Double → Value
  | .finite negative code => double (.finite negative code)
  | _ => null

mutual

/-- The value with null for every double that is not finite. -/
def nulled : Value → Value
  | double d => ofFinite d
  | array items => array (itemsNulled items)
  | object entries => object (entriesNulled entries)
  | v => v

def itemsNulled : List Value → List Value
  | [] => []
  | v :: rest => nulled v :: itemsNulled rest

def entriesNulled : List (String × Value) → List (String × Value)
  | [] => []
  | (k, v) :: rest => (k, nulled v) :: entriesNulled rest

end

theorem itemsNulled_eq (items : List Value) : itemsNulled items = items.map nulled := by
  induction items with
  | nil => rfl
  | cons v items ih => exact congrArg (nulled v :: ·) ih

theorem entriesNulled_eq (entries : Entries) :
    entriesNulled entries = entries.map fun e => (e.1, e.2.nulled) := by
  induction entries with
  | nil => rfl
  | cons e entries ih => exact congrArg ((e.1, e.2.nulled) :: ·) ih

theorem entriesNulled_eq_self {entries : Entries} (h : ∀ e ∈ entries, e.2.nulled = e.2) :
    entriesNulled entries = entries := by
  have hentry : ∀ e ∈ entries, (e.1, e.2.nulled) = e := by
    intro e he
    rw [h e he]
  rw [entriesNulled_eq, List.map_congr_left hentry, List.map_id']

theorem keys_entriesNulled (entries : Entries) :
    Entries.keys (entriesNulled entries) = entries.keys := by
  simp [Entries.keys, entriesNulled_eq]

theorem get?_entriesNulled (entries : Entries) (key : String) :
    Entries.get? (entriesNulled entries) key = (entries.get? key).map nulled := by
  induction entries with
  | nil => rfl
  | cons e entries ih =>
    obtain ⟨k, v⟩ := e
    rw [entriesNulled, Entries.get?_cons, Entries.get?_cons, ih]
    split <;> rfl

theorem get?_nulled (v : Value) (s : Step) : v.nulled.get? s = (v.get? s).map nulled := by
  cases v with
  | array items =>
    cases s with
    | index i => simp [nulled, get?, itemsNulled_eq]
    | key k => rfl
  | object entries =>
    cases s with
    | index i => rfl
    | key k => exact get?_entriesNulled entries k
  | double d => cases d <;> rfl
  | _ => rfl

/-- Every part is where it was. -/
theorem follow?_nulled (v : Value) (path : List Step) :
    v.nulled.follow? path = (v.follow? path).map nulled := by
  induction path generalizing v with
  | nil => rfl
  | cons s path ih =>
    rw [follow?_cons, follow?_cons, get?_nulled]
    cases v.get? s with
    | none => rfl
    | some w => exact ih w

theorem AllFinite.get? {v w : Value} (h : v.AllFinite) {s : Step} (hs : v.get? s = some w) :
    w.AllFinite := by
  intro path d hpath
  refine h (s :: path) d ?_
  rw [follow?_cons, hs]
  exact hpath

theorem nulled_of_allFinite {v : Value} (hv : v.DistinctKeys) (h : v.AllFinite) : v.nulled = v := by
  induction v using byParts with
  | leaf v hleaf =>
    cases v with
    | double d =>
      obtain ⟨negative, code, rfl⟩ := h [] d rfl
      rfl
    | array | object => exact hleaf.elim
    | _ => rfl
  | array items ih =>
    have hitem : ∀ w ∈ items, w.nulled = w := by
      intro w hw
      obtain ⟨i, hi⟩ := List.mem_iff_getElem?.mp hw
      exact ih w hw (itemsDistinct_iff.mp hv w hw) (h.get? (s := .index i) hi)
    rw [nulled, itemsNulled_eq, List.map_congr_left hitem, List.map_id']
  | object entries ih =>
    rw [nulled, entriesNulled_eq_self]
    intro e he
    have hget : Entries.get? entries e.1 = some e.2 := (Entries.get?_eq_some_iff hv.1).mpr he
    exact ih e he (entriesDistinct_iff.mp hv.2 e he) (h.get? (s := .key e.1) hget)

/-- Only doubles that are not finite are lost. -/
theorem nulled_eq_self_iff {v : Value} (hv : v.DistinctKeys) : v.nulled = v ↔ v.AllFinite := by
  refine ⟨fun h path d hpath => ?_, nulled_of_allFinite hv⟩
  have hnulled := follow?_nulled v path
  rw [h, hpath] at hnulled
  cases d with
  | finite negative code => exact ⟨negative, code, rfl⟩
  | _ => cases hnulled

end YamlCodec.Value
