import YamlCodec.Proofs.Token.Approach

/-!
# Where blocks begin

Inside a block collection a node begins at once or, after a colon or an empty dash, one step further
in; a block collection that is opened there replaces that step. What the scanner does to its steps of
indentation in these places.
-/

set_option autoImplicit false

namespace YamlCodec.Token
open YamlCodec.Source YamlCodec.Lexeme

/-- The innermost of the open steps is a collection, if there are any. -/
def Collected (indents : List Indent) : Prop := ∀ i ∈ indents.head?, i.collection = true

/-- The steps of indentation where a node of a block may begin. -/
inductive Within (column : Int) (indents : List Indent) : Int → List Indent → Prop where
  | flush : Within column indents column indents
  | stepped : Within column indents (column + 1) (⟨column, false⟩ :: indents)

/-- The steps of indentation where an entry of a collection begins, the first one or a later one. -/
inductive Enters (column : Nat) (outer : Int) (indents : List Indent) :
    Int → List Indent → Bool → Prop where
  | first {i : Int} {is : List Indent} (hw : Within outer indents i is) (hc : Collected indents)
      (ho : outer < column) : Enters column outer indents i is true
  | next : Enters column outer indents column (⟨outer, true⟩ :: indents) false

section
variable {column outer : Int} {indents is : List Indent} {i : Int}

theorem Within.indent_le (h : Within column indents i is) : i ≤ column + 1 := by
  cases h <;> omega

/-- A step that was not used is closed with the block around it. -/
theorem Within.close (h : Within column indents i is) {c : Int} (hc : c ≤ column)
    (kinds : List Kind) :
    Outline.close ⟨i, is, kinds⟩ c = Outline.close ⟨column, indents, kinds⟩ c := by
  cases h with
  | flush => rfl
  | stepped => exact Outline.close_step _ _ _ _ (by omega)

theorem Enters.indent_le {c : Nat} {new : Bool} (h : Enters c outer indents i is new) :
    i ≤ (c : Int) := by
  cases h with
  | first hw hc ho =>
    have := hw.indent_le
    omega
  | next => exact Int.le_refl _

end

namespace Scanner
variable {s : Scanner}

theorem leaveSteps_collected {is : List Indent} (h : Collected is) (s : Scanner) :
    leaveSteps is s = s := by
  cases is with
  | nil => rfl
  | cons i is => rw [leaveSteps, if_pos (h i rfl)]

theorem outdentSteps_within {column : Int} {indents : List Indent}
    (h : Within column indents s.indent s.indents) (hc : Collected indents) :
    s.outdentSteps = { s with indent := column, indents := indents } := by
  unfold outdentSteps
  generalize hi : s.indent = i at h
  generalize his : s.indents = is at h
  cases h with
  | flush =>
    rw [leaveSteps_collected hc, ← hi, ← his]
  | stepped =>
    rw [leaveSteps, if_neg Bool.false_ne_true, leaveSteps_collected hc]

/-- One step further in is where a node of a block may begin anyway. -/
theorem indentOne_within {column : Int} {indents : List Indent} (hs : s.flows = [])
    (h : Within column indents s.indent s.indents) :
    ∃ i is, s.indentOne = { s with indent := i, indents := is } ∧ Within column indents i is := by
  have hflow : s.inFlow = false := by rw [inFlow, hs]; rfl
  unfold indentOne
  rw [hflow]
  by_cases hat : s.atCollection = true
  · rw [hat]
    generalize hi : s.indent = i at h
    generalize his : s.indents = is at h
    cases h with
    | flush => exact ⟨_, _, rfl, .stepped⟩
    | stepped => simp [atCollection, his] at hat
  · rw [Bool.eq_false_iff.mpr hat]
    exact ⟨s.indent, s.indents, rfl, h⟩

/-- The token that opens a collection, where it is opened. -/
def opened (s : Scanner) (new : Bool) (position : Option Nat) (kind : Kind) (mark : Mark) :
    Scanner :=
  if new then
    match position with
    | some p => s.insert p kind mark
    | none => s.emit kind mark
  else s

theorem openBlock_enters (hs : s.flows = []) {column : Nat} {outer : Int} {indents : List Indent}
    {new : Bool} (h : Enters column outer indents s.indent s.indents new) (position : Option Nat)
    (kind : Kind) (mark : Mark) :
    s.openBlock column position kind mark =
      ({ s with indent := column, indents := ⟨outer, true⟩ :: indents } : Scanner).opened new
        position kind mark := by
  have hflow : s.inFlow = false := by rw [inFlow, hs]; rfl
  unfold openBlock
  rw [hflow, if_neg (by decide)]
  generalize hi : s.indent = i at h
  generalize his : s.indents = is at h
  cases h with
  | first hw hc ho =>
    cases hw with
    | flush =>
      cases indents with
      | nil =>
        simp only [hi, his, if_pos ho]
        rfl
      | cons j js =>
        have hj : j.collection = true := hc j rfl
        simp only [hj, Bool.not_true, Bool.and_false, Bool.false_eq_true, if_false, hi, his,
          if_pos ho]
        rfl
    | stepped =>
      have hle : outer + 1 ≤ (column : Int) := by omega
      simp only [Bool.not_false, Bool.and_true, decide_eq_true hle, if_true, if_pos ho]
      rfl
  | next =>
    simp only [Bool.not_true, Bool.and_false, Bool.false_eq_true, if_false, hi,
      if_neg (Int.lt_irrefl _), opened]
    rw [← hi, ← his]

/-- A candidate for a key may be remembered here; inside a block none has to be one. -/
theorem saveCandidate_within (hs : s.candidate = none) {column : Int} {indents : List Indent}
    (h : Within column indents s.indent s.indents) (hc : column < s.cursor.column) :
    ∃ c, s.saveCandidate = { s with candidate := c } ∧
      ∀ k ∈ c, k.required = false ∧ k.mark = s.mark := by
  unfold saveCandidate
  by_cases hkey : s.keyAllowed = true
  · rw [if_pos hkey]
    refine ⟨_, rfl, ?_⟩
    intro k hk
    obtain rfl := Option.some.inj hk
    refine ⟨?_, rfl⟩
    generalize hi : s.indent = i at h
    generalize his : s.indents = is at h
    cases h with
    | flush =>
      have hne : (s.indent == (s.cursor.column : Int)) = false := by
        rw [hi, beq_eq_false_iff_ne]
        omega
      simp only
      rw [← hi, hne, Bool.and_false, Bool.false_and]
    | stepped =>
      have hat : s.atCollection = false := by rw [atCollection, his]
      simp only
      rw [hat, Bool.and_false]
  · rw [if_neg hkey]
    exact ⟨none, by rw [← hs], by simp⟩

end Scanner
end YamlCodec.Token
