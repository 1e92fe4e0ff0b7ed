import YamlCodec.Lexeme.Plain
import YamlCodec.Scalar.Plain
import YamlCodec.Proofs.Lexeme.Gap

/-!
# Plain scalars read back

A safe text holds nothing that ends a plain scalar of block context. It is read up to the colon of a
key, or up to the next line if that is not indented further than the block around it.
-/

set_option autoImplicit false

namespace YamlCodec.Lexeme.Plain
open YamlCodec.Source YamlCodec.Scalar

/-- The part of a safe text that is still to be read. -/
structure Runs (cs : List Char) : Prop where
  ends : endsPlain cs = true
  separator : holdsSeparator cs = false
  hash : ∀ c ∈ cs, c ≠ '#'
  safe : ∀ c ∈ cs, isUnsafe c = false

theorem runs_of_safe {cs : List Char} (h : isPlainSafe cs = true) : Runs cs := by
  simp only [isPlainSafe, Bool.and_eq_true, Bool.not_eq_true'] at h
  obtain ⟨⟨⟨⟨_, hends⟩, hsep⟩, hhash⟩, hsafe⟩ := h
  refine ⟨hends, hsep, fun c hc => ?_, fun c hc => ?_⟩
  · rintro rfl
    simp [hc] at hhash
  · simpa using List.any_eq_false.mp hsafe c hc

theorem safe_ordinary {c : Char} (h : isUnsafe c = false) :
    isBreak c = false ∧ c ≠ '\t' ∧ c ≠ '\x00' := by
  have hne {x : Char} (hx : isUnsafe x = true) : c ≠ x := by
    rintro rfl
    simp [hx] at h
  refine ⟨?_, hne (by decide), hne (by decide)⟩
  have hfeed : c ≠ '\n' := hne (by decide)
  have hreturn : c ≠ '\r' := hne (by decide)
  simp [isBreak, hfeed, hreturn]

theorem Runs.oneLine {cs : List Char} (h : Runs cs) : OneLine cs :=
  fun c hc => (safe_ordinary (h.safe c hc)).1

theorem Runs.ne_nil {cs : List Char} (h : Runs cs) : cs ≠ [] := by
  rintro rfl
  exact absurd h.ends (by decide)

theorem Runs.tail {c : Char} {cs : List Char} (h : Runs (c :: cs)) (hcs : cs ≠ []) : Runs cs := by
  refine ⟨?_, ?_, fun x hx => h.hash x (List.mem_cons_of_mem c hx),
    fun x hx => h.safe x (List.mem_cons_of_mem c hx)⟩
  · have hends := h.ends
    obtain ⟨x, xs, rfl⟩ := List.exists_cons_of_ne_nil hcs
    rwa [endsPlain, List.getLast?_cons_cons] at hends
  · have hsep := h.separator
    unfold holdsSeparator at hsep
    split at hsep
    · simp at hsep
    · rename_i heq
      obtain ⟨rfl, rfl⟩ := List.cons.inj heq
      exact hsep
    · simp at *

/-- A colon within the text has no gap after it. -/
theorem Runs.colon {cs : List Char} (h : Runs (':' :: cs)) (rest : List Char) :
    gapAhead (cs ++ rest) = false := by
  cases cs with
  | nil => exact absurd h.ends (by decide)
  | cons c cs =>
    have hspace : c ≠ ' ' := by
      rintro rfl
      have := h.separator
      simp [holdsSeparator] at this
    obtain ⟨hbreak, htab, _⟩ := safe_ordinary (h.safe c (by simp))
    simp [gapAhead, isBlank, hspace, htab, hbreak]

theorem ends_inline (blanks : List Char) (flow : Bool) (indent : Int) {c : Char} (hc : c ≠ '#')
    (cs : List Char) : (⟨0, blanks, false⟩ : Gap).ends flow indent c cs = false := by
  simp [Gap.ends, Gap.indents, hc]

/-- The text is read to its end, the blanks before it being kept. -/
theorem read_runs {cs : List Char} (h : Runs cs) (indent : Int) (taken blanks : List Char) (n : Nat)
    (rest : List Char) :
    read false indent taken ⟨0, blanks, false⟩ n (cs ++ rest) =
      read false indent (cs.reverse ++ (blanks ++ taken)) Gap.none (n + cs.length) rest := by
  induction cs generalizing taken blanks n with
  | nil => exact absurd rfl h.ne_nil
  | cons c cs ih =>
    obtain ⟨hbreak, htab, _⟩ := safe_ordinary (h.safe c List.mem_cons_self)
    rw [List.cons_append, read]
    simp only [hbreak, Bool.false_eq_true, if_false]
    by_cases hc : c = ' '
    · have hcs : cs ≠ [] := by
        rintro rfl
        have := h.ends
        simp [endsPlain, hc] at this
      have hblank : isBlank c = true := by
        rw [hc]
        decide
      have htab' : (c == '\t') = false := by simpa using htab
      simp only [hblank, if_true, htab', Bool.false_and, Bool.false_eq_true, if_false, Gap.blank]
      rw [ih (h.tail hcs)]
      simp [Nat.add_assoc, Nat.add_comm 1]
    · have hblank : isBlank c = false := by simp [isBlank, hc, htab]
      have hstop : stops false c (cs ++ rest) = false := by
        by_cases hcolon : c = ':'
        · subst hcolon
          simp [stops, h.colon rest]
        · simp [stops, hcolon]
      rw [ends_inline _ _ _ (h.hash c List.mem_cons_self)]
      simp only [hblank, hstop, Bool.false_eq_true, if_false, Bool.false_and, Gap.text]
      cases cs with
      | nil => simp
      | cons c' cs =>
        rw [Gap.none, ih (h.tail (by simp)), Gap.none]
        simp [Nat.add_assoc, Nat.add_comm 1]

theorem read_key {cs rest : List Char} (h : isPlainSafe cs = true) (hr : gapAhead rest = true)
    (indent : Int) :
    read false indent [] Gap.none 0 (cs ++ ':' :: rest) =
      .ok ⟨cs.reverse, cs.length, false, false⟩ := by
  have hruns := runs_of_safe h
  have hne := hruns.ne_nil
  rw [Gap.none, read_runs hruns, read]
  simp [isBreak, isBlank, Gap.none, ends_inline, stops, hr, finish, hne]

theorem read_blanks (indent : Int) (taken blanks : List Char) (n k : Nat) (rest : List Char) :
    read false indent taken ⟨1, blanks, false⟩ n (List.replicate k ' ' ++ rest) =
      read false indent taken ⟨1, List.replicate k ' ' ++ blanks, false⟩ (n + k) rest := by
  induction k generalizing blanks n with
  | zero => simp
  | succ k ih =>
    rw [List.replicate_succ, List.cons_append, read]
    simp only [isBreak, isBlank, Gap.blank]
    have hblanks :
        List.replicate k ' ' ++ ' ' :: blanks = ' ' :: (List.replicate k ' ' ++ blanks) := by
      rw [← List.cons_append, ← List.replicate_succ, List.replicate_succ', List.append_assoc]
      rfl
    simp [ih, hblanks, Nat.add_assoc, Nat.add_comm 1]

theorem read_line {cs rest : List Char} (h : isPlainSafe cs = true) (hr : Begins rest) {k : Nat}
    {indent : Int} (hk : rest = [] ∨ (k : Int) < indent) :
    read false indent [] Gap.none 0 (cs ++ '\n' :: (List.replicate k ' ' ++ rest)) =
      .ok ⟨cs.reverse, cs.length + (1 + k), true, false⟩ := by
  have hruns := runs_of_safe h
  have hne := hruns.ne_nil
  have hbreak : isBreak '\n' = true := by decide
  rw [Gap.none, read_runs hruns, read]
  simp only [hbreak, if_true]
  rw [if_neg (by simp), Gap.lineBreak, Gap.none, read_blanks]
  cases rest with
  | nil => simp [read, finish, hne, Nat.add_assoc]
  | cons c rest =>
    obtain ⟨hblank, hbreak, _⟩ := hr
    have hk : (k : Int) < indent := hk.resolve_left (by simp)
    rw [read]
    simp [hblank, hbreak, Gap.ends, Gap.isNone, Gap.indents, Gap.column, hk, finish, hne,
      Nat.add_assoc]

theorem finish_eq {taken : List Char} (ht : taken ≠ []) (gap : Gap) (n : Nat) (commented : Bool) :
    finish taken gap n commented = .ok ⟨taken, n, gap.breaks != 0, commented⟩ := by
  rw [finish, List.isEmpty_eq_false_iff.mpr ht]
  rfl

/-- Nothing stands further in than an entry: the lines are blank up to one whose text begins, after
spaces only, at the column of the entry or further out, or is a comment or a document mark. A tab is
no indentation. -/
def outside (entry : Int) (tabbed : Bool) (column : Nat) : List Char → Bool
  | [] => true
  | c :: cs =>
    if isBreak c then outside entry false 0 cs
    else if isBlank c then outside entry (tabbed || c == '\t') (column + 1) cs
    else !tabbed && (decide ((column : Int) ≤ entry) || c == '#' || documentMarkAhead (c :: cs))

section
variable {entry : Int}

/-- It does not matter where a text of this kind is cut, if no document mark is. -/
theorem outside_takeWhile {p : Char → Bool} (hp : p '-' = true ∧ p '.' = true) {cs : List Char}
    {tabbed : Bool} {column : Nat} (h : outside entry tabbed column cs = true) :
    outside entry tabbed column (cs.takeWhile p) = true := by
  induction cs generalizing tabbed column with
  | nil => rfl
  | cons c cs ih =>
    have hmark : documentMarkAhead (c :: cs) = true →
        documentMarkAhead ((c :: cs).takeWhile p) = true := documentMarkAhead_takeWhile p hp
    rw [List.takeWhile_cons] at hmark ⊢
    split
    · rename_i hc
      rw [if_pos hc] at hmark
      rw [outside] at h ⊢
      split
      · rename_i hbreak
        exact ih (by rwa [if_pos hbreak] at h)
      · rename_i hbreak
        rw [if_neg hbreak] at h
        split
        · rename_i hblank
          exact ih (by rwa [if_pos hblank] at h)
        · rename_i hblank
          rw [if_neg hblank, Bool.and_eq_true, Bool.or_eq_true] at h
          rw [Bool.and_eq_true, Bool.or_eq_true]
          exact ⟨h.1, h.2.imp id hmark⟩
    · rfl

/-- A line of the layout stands outside from the column on in which its token begins. -/
theorem outside_line {k column : Nat} {rest : List Char} (hb : Begins rest)
    (hk : ((column + k : Nat) : Int) ≤ entry) :
    outside entry false column (List.replicate k ' ' ++ rest) = true := by
  induction k generalizing column with
  | zero =>
    cases rest with
    | nil => rfl
    | cons c cs =>
      obtain ⟨hblank, hbreak, _⟩ := hb
      have hcolumn : (column : Int) ≤ entry := hk
      simp [outside, hblank, hbreak, hcolumn]
  | succ k ih =>
    rw [List.replicate_succ, List.cons_append, outside, if_neg (by decide), if_pos (by decide)]
    exact ih (by rwa [Nat.add_right_comm])

theorem blankLine_of_outside {cs : List Char} {column : Nat} (h : outside entry true column cs = true) :
    blankLine cs = true := by
  induction cs generalizing column with
  | nil => rfl
  | cons c cs ih =>
    rw [outside] at h
    cases hbreak : isBreak c with
    | true => simp [blankLine, hbreak]
    | false =>
      cases hblank : isBlank c with
      | true =>
        rw [hbreak, hblank, if_neg (by decide), if_pos rfl, Bool.true_or] at h
        simp [blankLine, hblank, ih h]
      | false => simp [hbreak, hblank] at h

/-- After a line break a gap tells the column, unless a tab has shown that the line has to be blank. -/
structure Gap.Tracks (gap : Gap) (tabbed : Bool) (column : Nat) : Prop where
  breaks : gap.breaks ≠ 0
  column : tabbed = false → gap.skipping = false ∧ gap.column = column

section
variable {taken cs : List Char} {c : Char} {tabbed : Bool} {column : Nat} {gap : Gap}
  (hg : gap.Tracks tabbed column)
include hg

theorem Gap.Tracks.skip (skipping : Bool) (column' : Nat) :
    ({ gap with skipping } : Gap).Tracks true column' :=
  ⟨hg.breaks, fun h => absurd h (by decide)⟩

theorem Gap.Tracks.blank (hs : gap.skipping = false) (c : Char) :
    (gap.blank c).Tracks (tabbed || c == '\t') (column + 1) :=
  ⟨hg.breaks, fun h => ⟨hs, congrArg Nat.succ (hg.column (Bool.or_eq_false_iff.mp h).1).2⟩⟩

/-- A break or a blank becomes part of the gap, or is passed over. -/
theorem read_gap (hc : isBreak c = true ∨ isBlank c = true)
    (h : outside entry tabbed column (c :: cs) = true) (taken : List Char) :
    ∃ gap' tabbed' column', gap'.Tracks tabbed' column' ∧ outside entry tabbed' column' cs = true ∧
      ∀ n, read false (entry + 1) taken gap n (c :: cs) =
        read false (entry + 1) taken gap' (n + 1) cs := by
  rw [outside] at h
  cases hbreak : isBreak c with
  | true =>
    rw [hbreak, if_pos rfl] at h
    by_cases hfeed : (c == '\r' && cs.head? == some '\n') = true
    · -- the line feed after a carriage return starts the line again
      obtain ⟨rest, rfl⟩ : ∃ rest, cs = '\n' :: rest := by
        rw [Bool.and_eq_true, beq_iff_eq, beq_iff_eq] at hfeed
        exact List.head?_eq_some_iff.mp hfeed.2
      exact ⟨gap, tabbed, column, hg, h, fun n => by rw [read, if_pos hbreak, if_pos hfeed]⟩
    · exact ⟨gap.lineBreak, false, 0, ⟨Nat.succ_ne_zero _, fun _ => ⟨rfl, rfl⟩⟩, h,
        fun n => by rw [read, if_pos hbreak, if_neg hfeed]⟩
  | false =>
    have hblank : isBlank c = true := hc.resolve_left (by simp [hbreak])
    rw [hbreak, if_neg Bool.false_ne_true, if_pos hblank] at h
    cases hskip : gap.skipping with
    | true =>
      cases tabbed with
      | true =>
        exact ⟨gap, true, column + 1, hg.skip gap.skipping _, h, fun n => by
          rw [read, hbreak, if_neg Bool.false_ne_true, if_pos hskip]⟩
      | false => simp [(hg.column rfl).1] at hskip
    | false =>
      by_cases htab : (c == '\t' && gap.indents (entry + 1)) = true
      · have hc : (c == '\t') = true := (Bool.and_eq_true_iff.mp htab).1
        rw [hc, Bool.or_true] at h
        exact ⟨{ gap with skipping := true }, true, column + 1, hg.skip true _, h, fun n => by
          rw [read, hbreak, hskip, if_neg Bool.false_ne_true, if_neg Bool.false_ne_true, if_pos hblank,
            if_pos htab, if_pos (blankLine_of_outside h)]⟩
      · exact ⟨gap.blank c, _, column + 1, hg.blank hskip c, h, fun n => by
          rw [read, hbreak, hskip, if_neg Bool.false_ne_true, if_neg Bool.false_ne_true, if_pos hblank,
            if_neg htab]⟩

/-- Text further out ends the scalar, and so does a comment or a document mark. -/
theorem read_end (hbreak : isBreak c = false) (hblank : isBlank c = false)
    (h : outside entry tabbed column (c :: cs) = true) (ht : taken ≠ []) (n : Nat) :
    read false (entry + 1) taken gap n (c :: cs) = .ok ⟨taken, n, true, false⟩ := by
  rw [outside, hbreak, hblank, if_neg Bool.false_ne_true, if_neg Bool.false_ne_true, Bool.and_eq_true,
    Bool.not_eq_true', Bool.or_eq_true, Bool.or_eq_true, decide_eq_true_iff] at h
  obtain ⟨hskip, hcolumn⟩ := hg.column h.1
  have hends : gap.ends false (entry + 1) c cs = true := by
    obtain (hout | hcomment) | hmark := h.2
    · have hindent : (gap.column : Int) < entry + 1 := by omega
      simp [Gap.ends, Gap.isNone, Gap.indents, hg.breaks, hindent]
    · simp [Gap.ends, Gap.isNone, hg.breaks, hcomment]
    · simp [Gap.ends, Gap.isNone, hg.breaks, hmark]
  rw [read, hbreak, hblank, hskip, hends, if_neg Bool.false_ne_true, if_neg Bool.false_ne_true,
    if_neg Bool.false_ne_true, if_pos rfl, finish_eq ht]
  simp [hg.breaks]

end

/-- After a line break a scalar ends where nothing stands further in. -/
theorem read_outside {taken : List Char} (ht : taken ≠ []) {rest : List Char} {tabbed : Bool}
    {column : Nat} (h : outside entry tabbed column rest = true) {gap : Gap}
    (hg : gap.Tracks tabbed column) (n : Nat) :
    ∃ n', n ≤ n' ∧ read false (entry + 1) taken gap n rest = .ok ⟨taken, n', true, false⟩ := by
  induction rest generalizing tabbed column gap n with
  | nil => exact ⟨n, Nat.le_refl n, by rw [read, finish_eq ht, bne_iff_ne.mpr hg.breaks]⟩
  | cons c cs ih =>
    by_cases hc : isBreak c = true ∨ isBlank c = true
    · obtain ⟨gap', _, _, hg', h', hread⟩ := read_gap hg hc h taken
      obtain ⟨n', hn, hend⟩ := ih h' hg' (n + 1)
      exact ⟨n', Nat.le_of_succ_le hn, (hread n).trans hend⟩
    · rw [not_or, Bool.not_eq_true, Bool.not_eq_true] at hc
      exact ⟨n, Nat.le_refl n, read_end hg hc.1 hc.2 h ht n⟩

/-- A safe text is read to its end and over its line, if what follows stands outside the entry. -/
theorem read_inside {cs after : List Char} (h : isPlainSafe cs = true)
    (ha : outside entry false 0 after = true) :
    ∃ n, cs.length < n ∧
      read false (entry + 1) [] Gap.none 0 (cs ++ '\n' :: after) = .ok ⟨cs.reverse, n, true, false⟩ := by
  have hruns := runs_of_safe h
  have hbreak : isBreak '\n' = true := by decide
  have htracks : (⟨1, [], false⟩ : Gap).Tracks false 0 := ⟨by decide, fun _ => ⟨rfl, rfl⟩⟩
  obtain ⟨n, hn, hread⟩ := read_outside (List.reverse_ne_nil_iff.mpr hruns.ne_nil) ha htracks
    (cs.length + 1)
  refine ⟨n, hn, ?_⟩
  rw [Gap.none, read_runs hruns, read]
  simp only [hbreak, if_true]
  rw [if_neg (by simp), Nat.zero_add, List.nil_append, List.append_nil]
  exact hread

end

/-- Where lines need no indentation a scalar that has begun is read to some end, whatever follows. -/
theorem read_goes_on {indent : Int} (hi : indent ≤ 0) {taken : List Char} (ht : taken ≠ [])
    (gap : Gap) (n : Nat) (rest : List Char) :
    ∃ r, read false indent taken gap n rest = .ok r ∧ taken <:+ r.text ∧ n ≤ r.length := by
  induction rest generalizing taken gap n with
  | nil => exact ⟨_, finish_eq ht gap n false, List.suffix_refl _, Nat.le_refl n⟩
  | cons c cs ih =>
    have hskip (gap : Gap) : ∃ r, read false indent taken gap (n + 1) cs = .ok r ∧
        taken <:+ r.text ∧ n ≤ r.length := by
      obtain ⟨r, hr, htext, hn⟩ := ih ht gap (n + 1)
      exact ⟨r, hr, htext, Nat.le_of_succ_le hn⟩
    -- no line is too far out, so that no tab and no indentation ends the scalar
    have hout : gap.indents indent = false := by
      simp only [Gap.indents, Bool.and_eq_false_iff, decide_eq_false_iff_not]
      exact .inr (by omega)
    rw [read]
    simp only [hout, Bool.and_false, Bool.false_and, Bool.false_eq_true, if_false]
    split
    · split
      · exact hskip gap
      · exact hskip gap.lineBreak
    split
    · exact hskip gap
    split
    · exact hskip (gap.blank c)
    split
    · exact ⟨_, finish_eq ht gap n _, List.suffix_refl _, Nat.le_refl n⟩
    split
    · exact ⟨_, finish_eq ht gap n false, List.suffix_refl _, Nat.le_refl n⟩
    · obtain ⟨r, hr, htext, hn⟩ := ih (List.cons_ne_nil c (gap.text ++ taken)) Gap.none (n + 1)
      exact ⟨r, hr, .trans ⟨c :: gap.text, rfl⟩ htext, Nat.le_of_succ_le hn⟩

theorem read_safe {cs : List Char} (h : isPlainSafe cs = true) {indent : Int} (hi : indent ≤ 0)
    (rest : List Char) : ∃ r, read false indent [] Gap.none 0 (cs ++ rest) = .ok r := by
  have hruns := runs_of_safe h
  obtain ⟨r, hr, _⟩ := read_goes_on hi (List.reverse_ne_nil_iff.mpr hruns.ne_nil) Gap.none
    (0 + cs.length) rest
  refine ⟨r, ?_⟩
  rw [← hr, Gap.none, read_runs hruns, List.nil_append, List.append_nil, Gap.none]

/-- A safe text goes on with the token of the next line, one space being between them. -/
theorem read_next_line {cs : List Char} (h : isPlainSafe cs = true) {c : Char} {rest : List Char}
    (hb : Begins (c :: rest)) (hm : documentMarkAhead (c :: rest) = false)
    (hc : c = ':' → gapAhead rest = false) :
    ∃ r more, read false 0 [] Gap.none 0 (cs ++ '\n' :: c :: rest) = .ok r ∧
      r.text.reverse = cs ++ ' ' :: c :: more ∧ cs.length + 2 ≤ r.length := by
  obtain ⟨hblank, hbreak, hhash⟩ := hb
  have hruns := runs_of_safe h
  have hstop : stops false c rest = false := by
    by_cases hcolon : c = ':'
    · simp [stops, hcolon, hc hcolon]
    · simp [stops, hcolon]
  obtain ⟨r, hr, ⟨more, htext⟩, hn⟩ := read_goes_on (Int.le_refl 0)
    (List.cons_ne_nil c (' ' :: cs.reverse)) Gap.none (cs.length + 2) rest
  refine ⟨r, more.reverse, ?_, ?_, hn⟩
  · have hfeed : isBreak '\n' = true := by decide
    rw [Gap.none, read_runs hruns, read]
    simp only [hfeed, if_true]
    rw [if_neg (by simp), read, ← hr]
    simp [hbreak, hblank, hhash, hstop, hm, Gap.lineBreak, Gap.none, Gap.ends, Gap.isNone,
      Gap.indents, Gap.column, Gap.text]
  · rw [← htext]
    simp

end YamlCodec.Lexeme.Plain
