import YamlCodec.Proofs.Json.Number
import YamlCodec.Proofs.Json.Text

/-!
# Values read back from JSON

The text of data is read as what comes back of it, within the nesting that may be read. So a value comes
back as it was written, but for doubles that are not finite: JSON has no number for them, and null comes
back.
-/

set_option autoImplicit false

namespace YamlCodec.Json
open YamlCodec.Text YamlCodec.Text.Digit

/-! ## First characters -/

theorem skipSpace_cons {c : Char} (h : isSpace c = false) (cs : List Char) :
    skipSpace (c :: cs) = c :: cs := by
  rw [skipSpace, List.dropWhile_cons_of_neg (by simp [h])]

/-- A text between two characters begins with the first of them. -/
theorem skipSpace_enclosed {c : Char} (h : isSpace c = false) (inner : List Char) (last : Char)
    (rest : List Char) :
    skipSpace (c :: (inner ++ [last]) ++ rest) = c :: (inner ++ last :: rest) := by
  rw [List.cons_append, skipSpace_cons h, List.append_assoc]
  rfl

theorem decimal_ne {c x : Char} (h : IsDecimal c) (hx : ¬ IsDecimal x) : c ≠ x :=
  fun heq => hx (heq ▸ h)

theorem decimal_not_space {c : Char} (h : IsDecimal c) : isSpace c = false := by
  simp [isSpace, decimal_ne h (x := ' ') (by decide), decimal_ne h (x := '\t') (by decide),
    decimal_ne h (x := '\n') (by decide), decimal_ne h (x := '\r') (by decide)]

section
variable {num : Numbers}

/-- Digits behind a sign or none are a number. -/
theorem readDatum?_signed {c : Char} (hc : IsDecimal c) (tail : List Char) (negative : Bool)
    (depth fuel : Nat) :
    readDatum? num depth (fuel + 1) (Scalar.signed negative (c :: tail)) =
      readNumber? num negative (c :: tail) := by
  cases negative with
  | true => rfl
  | false =>
    change readDatum? num depth (fuel + 1) (c :: tail) = _
    rw [readDatum?, skipSpace_cons (decimal_not_space hc)]
    split
    case h_8 => rfl
    all_goals
      rename_i h
      exact absurd (List.cons.inj h).1 (decimal_ne hc (by decide))

/-- Data are written as digits behind a sign or none, and these are read as what comes back. -/
def WrittenAsNumber (num : Numbers) (d : Datum) : Prop :=
  ∃ negative c tail, writeDatum num d = Scalar.signed negative (c :: tail) ∧ IsDecimal c ∧
    ∀ rest, Ends rest → readNumber? num negative (c :: tail ++ rest) = some (d.back, rest)

theorem writtenAsNumber_signed (i : Int64) : WrittenAsNumber num (.signed i) := by
  obtain ⟨⟨c, tail, hnumeral, hc⟩, -⟩ := Scalar.numeric_numeral i.toInt.natAbs
  refine ⟨decide (i.toInt < 0), c, tail, ?_, hc, fun rest hrest => ?_⟩
  · rw [writeDatum, Scalar.signedNumeral_eq, hnumeral]
  · rw [← hnumeral, readNumber?_numeral hrest (ofInteger?_signed i), Datum.back]

theorem writtenAsNumber_unsigned (n : UInt64) : WrittenAsNumber num (.unsigned n) := by
  obtain ⟨⟨c, tail, hnumeral, hc⟩, -⟩ := Scalar.numeric_numeral n.toNat
  refine ⟨false, c, tail, ?_, hc, fun rest hrest => ?_⟩
  · rw [writeDatum, hnumeral]
    rfl
  · rw [← hnumeral, readNumber?_numeral hrest (ofInteger?_unsigned n)]
    rfl

theorem writtenAsNumber_finite (hnum : num.Lawful) (negative : Bool) (code : Fin Double.magnitudes) :
    WrittenAsNumber num (.double (.finite negative code)) := by
  obtain ⟨cs, htext, ⟨c, tail, rfl, hc⟩, hread⟩ := readNumber?_finite hnum negative code
  exact ⟨negative, c, tail, by rw [writeDatum, writeDouble, htext], hc, hread⟩

theorem WrittenAsNumber.head {d : Datum} (h : WrittenAsNumber num d) :
    ∃ c tail, writeDatum num d = c :: tail ∧ isSpace c = false ∧ c ≠ ']' := by
  obtain ⟨negative, c, tail, htext, hc, -⟩ := h
  cases negative with
  | true => exact ⟨'-', c :: tail, htext, by decide, by decide⟩
  | false => exact ⟨c, tail, htext, decimal_not_space hc, decimal_ne hc (by decide)⟩

theorem WrittenAsNumber.read {d : Datum} (h : WrittenAsNumber num d) (depth fuel : Nat)
    {rest : List Char} (hrest : Ends rest) :
    readDatum? num depth (fuel + 1) (writeDatum num d ++ rest) = some (d.back, rest) := by
  obtain ⟨negative, c, tail, htext, hc, hread⟩ := h
  have hsigned : writeDatum num d ++ rest = Scalar.signed negative (c :: (tail ++ rest)) := by
    simp [htext, Scalar.signed]
  rw [hsigned, readDatum?_signed hc]
  exact hread rest hrest

theorem ends_items (items : List Datum) (rest : List Char) :
    Ends (writeItems num false items ++ ']' :: rest) := by
  cases items with
  | nil => simp [writeItems, Ends]
  | cons d items => simp [writeItems, Ends]

theorem ends_members (members : List (String × Datum)) (rest : List Char) :
    Ends (writeMembers num false members ++ '}' :: rest) := by
  cases members with
  | nil => simp [writeMembers, Ends]
  | cons m members => simp [writeMembers, Ends]

theorem readKey?_written (k : String) (rest : List Char) :
    readKey? (writeString k ++ ':' :: rest) = some (k, rest) := by
  have hspaces : skipSpace (writeString k ++ ':' :: rest) =
      '"' :: (k.toList.flatMap escape ++ '"' :: ':' :: rest) :=
    skipSpace_enclosed (by decide) _ _ _
  have hcolon : skipSpace (':' :: rest) = ':' :: rest := skipSpace_cons (by decide) rest
  simp only [readKey?, hspaces, readString?_escaped, hcolon]
  simp

/-- An object is read by its members, unless it has none. -/
theorem readDatum?_map {members : List (String × Datum)} {depth fuel : Nat} {rest : List Char}
    (hdepth : depth < maxNesting)
    (h : members ≠ [] →
      readMembers? num (depth + 1) fuel [] (writeMembers num true members ++ '}' :: rest) =
        some (.map (Datum.membersBack members), rest)) :
    readDatum? num depth (fuel + 1) (writeDatum num (.map members) ++ rest) =
      some ((Datum.map members).back, rest) := by
  have hopen : skipSpace (writeDatum num (.map members) ++ rest) =
      '{' :: (writeMembers num true members ++ '}' :: rest) :=
    skipSpace_enclosed (by decide) _ _ _
  simp only [readDatum?, hopen, if_neg (Nat.not_le.mpr hdepth)]
  cases members with
  | nil => rfl
  | cons m members => exact h (by simp)

/-! ## Texts of data -/

/-- A text begins with no blank, and not with a closing bracket. -/
theorem writeDatum_head (hnum : num.Lawful) (d : Datum) :
    ∃ c tail, writeDatum num d = c :: tail ∧ isSpace c = false ∧ c ≠ ']' := by
  have hword (c : Char) (tail : List Char) (h : isSpace c = false ∧ c ≠ ']') :
      ∃ x xs, c :: tail = x :: xs ∧ isSpace x = false ∧ x ≠ ']' := ⟨c, tail, rfl, h⟩
  match d with
  | .unit => exact hword _ _ (by decide)
  | .bool true => exact hword _ _ (by decide)
  | .bool false => exact hword _ _ (by decide)
  | .signed i => exact (writtenAsNumber_signed i).head
  | .unsigned n => exact (writtenAsNumber_unsigned n).head
  | .double (.finite negative code) => exact (writtenAsNumber_finite hnum negative code).head
  | .double .nan => exact hword _ _ (by decide)
  | .double (.infinity _) => exact hword _ _ (by decide)
  | .string s => exact hword _ _ (by decide)
  | .sequence items => exact hword _ _ (by decide)
  | .map members => exact hword _ _ (by decide)

theorem length_writeDatum_pos (hnum : num.Lawful) (d : Datum) : 0 < (writeDatum num d).length := by
  obtain ⟨c, tail, h, -⟩ := writeDatum_head hnum d
  simp [h]

/-- A list is read by its items, unless it has none. -/
theorem readDatum?_sequence (hnum : num.Lawful) {items : List Datum} {depth fuel : Nat}
    {rest : List Char} (hdepth : depth < maxNesting)
    (h : items ≠ [] → readItems? num (depth + 1) fuel [] (writeItems num true items ++ ']' :: rest) =
      some (.sequence (Datum.itemsBack items), rest)) :
    readDatum? num depth (fuel + 1) (writeDatum num (.sequence items) ++ rest) =
      some ((Datum.sequence items).back, rest) := by
  have hopen : skipSpace (writeDatum num (.sequence items) ++ rest) =
      '[' :: (writeItems num true items ++ ']' :: rest) :=
    skipSpace_enclosed (by decide) _ _ _
  simp only [readDatum?, hopen, if_neg (Nat.not_le.mpr hdepth)]
  cases items with
  | nil => rfl
  | cons d items =>
    obtain ⟨c, tail, hhead, hc, hbracket⟩ := writeDatum_head hnum d
    have hbody : writeItems num true (d :: items) ++ ']' :: rest =
        c :: (tail ++ writeItems num false items ++ ']' :: rest) := by
      simp [writeItems, hhead]
    rw [hbody] at h ⊢
    rw [skipSpace_cons hc]
    split
    · rename_i hclose
      exact absurd (List.cons.inj hclose).1 hbracket
    · exact h (by simp)

mutual

/-- Data come back from their text, whatever ends it. -/
theorem readDatum?_write (hnum : num.Lawful) (d : Datum) {depth fuel : Nat} {rest : List Char}
    (hdepth : depth + d.depth ≤ maxNesting) (hfuel : (writeDatum num d).length ≤ fuel)
    (hrest : Ends rest) :
    readDatum? num depth fuel (writeDatum num d ++ rest) = some (d.back, rest) := by
  obtain ⟨fuel, rfl⟩ := Nat.exists_eq_succ_of_ne_zero
    (Nat.ne_of_gt (Nat.lt_of_lt_of_le (length_writeDatum_pos hnum d) hfuel))
  match d with
  | .unit => rfl
  | .bool true => rfl
  | .bool false => rfl
  | .double .nan => rfl
  | .double (.infinity _) => rfl
  | .signed i => exact (writtenAsNumber_signed i).read depth fuel hrest
  | .unsigned n => exact (writtenAsNumber_unsigned n).read depth fuel hrest
  | .double (.finite negative code) =>
    exact (writtenAsNumber_finite hnum negative code).read depth fuel hrest
  | .string s =>
    have htext : skipSpace (writeDatum num (.string s) ++ rest) =
        '"' :: (s.toList.flatMap escape ++ '"' :: rest) :=
      skipSpace_enclosed (by decide) _ _ _
    simp only [readDatum?, htext, readString?_escaped]
    simp [Datum.back]
  | .sequence items =>
    rw [Datum.depth] at hdepth
    have hlength : (writeItems num true items).length < fuel := by
      simp only [writeDatum, List.length_cons, List.length_append, List.length_nil] at hfuel
      omega
    exact readDatum?_sequence hnum (by omega) fun hpos =>
      readItems?_written hnum items hpos [] rest (by omega) hlength
  | .map members =>
    rw [Datum.depth] at hdepth
    have hlength : (writeMembers num true members).length < fuel := by
      simp only [writeDatum, List.length_cons, List.length_append, List.length_nil] at hfuel
      omega
    exact readDatum?_map (by omega) fun hpos =>
      readMembers?_written hnum members hpos [] rest (by omega) hlength

theorem readItems?_written (hnum : num.Lawful) (items : List Datum) (hpos : items ≠ [])
    {depth fuel : Nat} (found : List Datum) (rest : List Char)
    (hdepth : depth + Datum.itemDepth items ≤ maxNesting)
    (hfuel : (writeItems num true items).length < fuel) :
    readItems? num depth fuel found (writeItems num true items ++ ']' :: rest) =
      some (.sequence (found.reverse ++ Datum.itemsBack items), rest) := by
  obtain ⟨fuel, rfl⟩ := Nat.exists_eq_succ_of_ne_zero (Nat.ne_of_gt (Nat.zero_lt_of_lt hfuel))
  match items with
  | [] => exact absurd rfl hpos
  | d :: items =>
    have htext : writeItems num true (d :: items) = writeDatum num d ++ writeItems num false items := rfl
    rw [Datum.itemDepth] at hdepth
    rw [htext, List.length_append] at hfuel
    rw [htext, List.append_assoc, readItems?,
      readDatum?_write hnum d (by omega) (by omega) (ends_items items rest)]
    match items with
    | [] => simp [writeItems, skipSpace_cons (show isSpace ']' = false by decide), Datum.itemsBack]
    | e :: items =>
      have hcomma : writeItems num false (e :: items) = ',' :: writeItems num true (e :: items) := rfl
      rw [hcomma, List.length_cons] at hfuel
      simp only [hcomma, List.cons_append, skipSpace_cons (show isSpace ',' = false by decide)]
      rw [readItems?_written hnum (e :: items) (by simp) _ rest (by omega) (by omega)]
      simp [Datum.itemsBack]

theorem readMembers?_written (hnum : num.Lawful) (members : List (String × Datum))
    (hpos : members ≠ []) {depth fuel : Nat} (found : List (String × Datum)) (rest : List Char)
    (hdepth : depth + Datum.memberDepth members ≤ maxNesting)
    (hfuel : (writeMembers num true members).length < fuel) :
    readMembers? num depth fuel found (writeMembers num true members ++ '}' :: rest) =
      some (.map (found.reverse ++ Datum.membersBack members), rest) := by
  obtain ⟨fuel, rfl⟩ := Nat.exists_eq_succ_of_ne_zero (Nat.ne_of_gt (Nat.zero_lt_of_lt hfuel))
  match members with
  | [] => exact absurd rfl hpos
  | (k, d) :: members =>
    have htext : writeMembers num true ((k, d) :: members) =
      writeString k ++ ':' :: (writeDatum num d ++ writeMembers num false members) := rfl
    rw [Datum.memberDepth] at hdepth
    rw [htext, List.length_append, List.length_cons, List.length_append] at hfuel
    rw [htext, List.append_assoc, List.cons_append, readMembers?, readKey?_written]
    simp only [List.append_assoc]
    rw [readDatum?_write hnum d (by omega) (by omega) (ends_members members rest)]
    match members with
    | [] => simp [writeMembers, skipSpace_cons (show isSpace '}' = false by decide), Datum.membersBack]
    | m :: members =>
      have hcomma : writeMembers num false (m :: members) = ',' :: writeMembers num true (m :: members) :=
        rfl
      rw [hcomma, List.length_cons] at hfuel
      simp only [hcomma, List.cons_append, skipSpace_cons (show isSpace ',' = false by decide)]
      rw [readMembers?_written hnum (m :: members) (by simp) _ rest (by omega) (by omega)]
      simp [Datum.membersBack]

end

/-- A whole text of data is read as what comes back of them. -/
theorem parse?_write (hnum : num.Lawful) {d : Datum} (hdepth : d.depth ≤ maxNesting) :
    parse? num (String.ofList (writeDatum num d)) = some d.back := by
  have hread : readDatum? num 0 ((writeDatum num d).length + 1) (writeDatum num d ++ []) =
      some (d.back, []) :=
    readDatum?_write hnum d (by omega) (by omega) (by simp [Ends])
  rw [List.append_nil] at hread
  rw [parse?, String.length_ofList, String.toList_ofList, hread]
  rfl

/-! ## Values -/

/-- If numbers are written and read as assumed, a value with its doubles that are not finite taken for
null comes back from its text. So the value itself does if there are no such doubles, and only then. -/
theorem reading_inverts_writing (hnum : num.Lawful) {v : Value} (hv : v.DistinctKeys)
    (hdepth : v.depth ≤ maxNesting) :
    read? num (String.ofList (write num v)) = some v.nulled ∧
      (read? num (String.ofList (write num v)) = some v ↔ v.AllFinite) := by
  have hread : read? num (String.ofList (write num v)) = some v.nulled := by
    rw [read?, write, parse?_write hnum (v.depth_datum ▸ hdepth), Option.map_some, v.value_back hv]
  refine ⟨hread, ?_⟩
  rw [hread, Option.some.injEq, Value.nulled_eq_self_iff hv]

end

theorem reading_inverts_writing_numbers :
    let v := Value.object [("\u0001", .array [.integer Int64.minValue, .integer 7, .double (.zero true),
      .double (Double.ofDecimal false 1 23), .double .nan]), ("", .object [])]
    read? .shortest (String.ofList (write .shortest v)) = some v.nulled ∧ ¬ v.AllFinite := by
  intro v
  have hdistinct : v.DistinctKeys := by
    simp [v, Value.DistinctKeys, Value.EntriesDistinct, Value.ItemsDistinct, Entries.keys]
  obtain ⟨hread, hself⟩ := reading_inverts_writing shortest_lawful hdistinct (by decide)
  refine ⟨hread, fun hfinite => ?_⟩
  obtain ⟨negative, code, hnan⟩ := hfinite [.key "\u0001", .index 4] .nan rfl
  cases hnan

end YamlCodec.Json
