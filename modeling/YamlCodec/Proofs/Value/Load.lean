import YamlCodec.Proofs.Decode.Load
import YamlCodec.Proofs.Decode.Result

/-!
# What a value counts as

What the text of a value adds to the counts when it is read. The tree that a value was decoded from
covers it: an alias is one more null, which is a node, and a key that comes again leaves the counts of
its first value behind. Bytes are not comparable, since a leaf may be spelled shorter than it is written.
-/

set_option autoImplicit false

namespace YamlCodec
open Decode

namespace Load

/-- A load that has no fewer events, no fewer nodes and aliases together, and no less depth. -/
structure Covers (a b : Load) : Prop where
  events : b.events ≤ a.events
  nodes : b.nodes + b.aliases ≤ a.nodes + a.aliases
  depth : b.depth ≤ a.depth

namespace Covers
variable {a b c d : Load}

theorem refl (a : Load) : a.Covers a := ⟨Nat.le_refl _, Nat.le_refl _, Nat.le_refl _⟩

theorem trans (hab : a.Covers b) (hbc : b.Covers c) : a.Covers c where
  events := Nat.le_trans hbc.events hab.events
  nodes := Nat.le_trans hbc.nodes hab.nodes
  depth := Nat.le_trans hbc.depth hab.depth

theorem beside (hac : a.Covers c) (hbd : b.Covers d) : (a.beside b).Covers (c.beside d) := by
  obtain ⟨he, hn, hd⟩ := hac
  obtain ⟨he', hn', hd'⟩ := hbd
  constructor <;> simp only [Load.beside] <;> omega

theorem collection (h : a.Covers b) : a.collection.Covers b.collection := by
  obtain ⟨he, hn, hd⟩ := h
  constructor <;> simp only [Load.collection] <;> omega

end Covers

theorem beside_assoc (a b c : Load) : (a.beside b).beside c = a.beside (b.beside c) := by
  simp only [beside, Load.mk.injEq]
  omega

end Load

namespace Value
open YamlCodec.Text

mutual

/-- What a value adds to the counts when its text is read. -/
def load : Value → Load
  | null => .scalar "null"
  | bool true => .scalar "true"
  | bool false => .scalar "false"
  | integer i => .scalar (String.ofList (Digit.signedNumeral i.toInt))
  | double d => .scalar (String.ofList (Scalar.Float.text d))
  | string s => .scalar s
  | array items => (itemLoad items).collection
  | object entries => (entryLoad entries).collection

def itemLoad : List Value → Load
  | [] => .none
  | v :: rest => (load v).beside (itemLoad rest)

def entryLoad : List (String × Value) → Load
  | [] => .none
  | (k, v) :: rest => (Load.scalar k).beside ((load v).beside (entryLoad rest))

end

mutual

theorem load_depth (v : Value) : v.load.depth = v.depth := by
  match v with
  | null | bool true | bool false | integer _ | double _ | string _ => rfl
  | array items => rw [load, depth, ← itemLoad_depth items, Load.collection]
  | object entries => rw [load, depth, ← entryLoad_depth entries, Load.collection]

theorem itemLoad_depth (items : List Value) : (itemLoad items).depth = itemDepth items := by
  match items with
  | [] => rfl
  | v :: rest => rw [itemLoad, itemDepth, ← load_depth v, ← itemLoad_depth rest, Load.beside]

theorem entryLoad_depth (entries : List (String × Value)) :
    (entryLoad entries).depth = entryDepth entries := by
  match entries with
  | [] => rfl
  | (k, v) :: rest =>
    rw [entryLoad, entryDepth, ← load_depth v, ← entryLoad_depth rest]
    exact Nat.zero_max _

end

/-- A leaf is one scalar, whatever its text is. -/
theorem IsLeaf.covered {v : Value} (hv : v.IsLeaf) (text : String) :
    (Load.scalar text).Covers v.load := by
  match v with
  | null | bool true | bool false | integer _ | double _ | string _ =>
    exact ⟨Nat.le_refl 1, Nat.le_refl 1, Nat.le_refl 0⟩
  | array _ => exact hv.elim
  | object _ => exact hv.elim

/-- An inserted entry is covered by the entries before and itself, at whatever place it comes. -/
theorem insert_covered (found : Entries) (key : String) (v : Value) :
    ((entryLoad found).beside ((Load.scalar key).beside v.load)).Covers
      (entryLoad (found.insert key v)) := by
  induction found with
  | nil =>
    rw [Entries.insert]
    constructor <;> simp only [entryLoad, Load.beside, Load.none] <;> omega
  | cons e found ih =>
    obtain ⟨k, w⟩ := e
    rw [Entries.insert]
    split
    · constructor <;> simp only [entryLoad, Load.beside, Load.scalar] <;> omega
    · rw [entryLoad, entryLoad, Load.beside_assoc, Load.beside_assoc]
      exact (Load.Covers.refl _).beside ((Load.Covers.refl _).beside ih)

end Value

namespace Decode.Tree

mutual

/-- A tree covers its value. -/
theorem load_covers (t : Tree) {v : Value} (h : t.value? = some v) : t.load.Covers v.load := by
  match t with
  | .scalar text style tag =>
    obtain rfl := Option.some.inj h
    exact (Scalar.resolve_denotes text style tag).isLeaf.covered text
  | .alias =>
    obtain rfl := Option.some.inj h
    exact ⟨Nat.le_refl 1, Nat.le_refl 1, Nat.le_refl 0⟩
  | .sequence items =>
    obtain ⟨vs, hvs, rfl⟩ := Option.map_eq_some_iff.mp h
    exact (itemLoad_covers items hvs).collection
  | .mapping entries =>
    obtain ⟨es, hes, rfl⟩ := Option.map_eq_some_iff.mp h
    have hempty : (entryLoad entries).Covers ((Value.entryLoad []).beside (entryLoad entries)) := by
      constructor <;> simp only [Value.entryLoad, Load.beside, Load.none] <;> omega
    exact (hempty.trans (entryLoad_covers entries hes)).collection

theorem itemLoad_covers (items : List Tree) {vs : List Value} (h : itemValues? items = some vs) :
    (itemLoad items).Covers (Value.itemLoad vs) := by
  match items with
  | [] =>
    obtain rfl := Option.some.inj h
    exact .refl _
  | t :: rest =>
    obtain ⟨v, hv, h⟩ := Option.bind_eq_some_iff.mp h
    obtain ⟨vs, hvs, rfl⟩ := Option.map_eq_some_iff.mp h
    exact (load_covers t hv).beside (itemLoad_covers rest hvs)

theorem entryLoad_covers (entries : List (Tree × Tree)) {found es : Entries}
    (h : insertAll? found entries = some es) :
    ((Value.entryLoad found).beside (entryLoad entries)).Covers (Value.entryLoad es) := by
  match entries with
  | [] =>
    obtain rfl := Option.some.inj h
    constructor <;> simp only [Load.beside] <;> omega
  | (k, t) :: rest =>
    obtain ⟨key, hkey, h⟩ := Option.bind_eq_some_iff.mp h
    obtain ⟨v, hv, h⟩ := Option.bind_eq_some_iff.mp h
    have hk : k.load.Covers (.scalar key) := by
      cases k with
      | scalar text _ _ =>
        obtain rfl := Option.some.inj hkey
        exact .refl _
      | _ => simp [key?] at hkey
    rw [entryLoad, ← Load.beside_assoc k.load, ← Load.beside_assoc]
    have hentry := (Load.Covers.refl (Value.entryLoad found)).beside (hk.beside (load_covers t hv))
    exact ((hentry.trans (Value.insert_covered found key v)).beside (.refl _)).trans
      (entryLoad_covers rest h)

end

end Decode.Tree
end YamlCodec
