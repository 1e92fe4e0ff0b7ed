import YamlCodec.Proofs.Token.Seam

/-!
# Roots one behind the other

A root in quotes or brackets is told as it is, whatever follows it. A plain one goes on with the text of
the next root, which it makes its own. A block collection goes on with what is a collection of its kind;
anything else is left over, and a leaf even stops the scan, since a key was expected in its place.
-/

set_option autoImplicit false

namespace YamlCodec.Writer.Node

/-- The end of the node shows in its own text, by a quote or a bracket. -/
def isClosed : Node → Bool
  | scalar text p => (p.style text).isQuoted
  | sequence items => items.isEmpty
  | mapping entries => entries.isEmpty

/-- The mark of its first entry, by which a block collection of the same kind goes on with it. -/
def entryMark? : Node → Option Token.Kind
  | sequence (_ :: _) => some .blockEntry
  | mapping (_ :: _) => some .key
  | _ => none

theorem entryMark?_cases {n : Node} {k : Token.Kind} (h : n.entryMark? = some k) :
    k = .blockEntry ∨ k = .key := by
  unfold entryMark? at h
  split at h <;> simp_all

theorem isLeaf_of_closed {n : Node} (hn : n.isClosed = true) : n.isLeaf = true := by
  unfold isClosed at hn
  split at hn <;> simp_all [isLeaf]

theorem isLeaf_of_entryMark? {n : Node} (h : n.entryMark?.isSome) : n.isLeaf = false := by
  unfold entryMark? at h
  split at h <;> simp_all [isLeaf]

end YamlCodec.Writer.Node

namespace YamlCodec.Token
open YamlCodec.Source YamlCodec.Lexeme YamlCodec.Writer

section
variable {s : Scanner} {kinds : List Kind} {rest : List Char}

theorem Ready.quoted {cs : List Char}
    (h : Ready s (outermost (Scalar.Quoted.encode cs ++ '\n' :: rest) kinds)) (hb : Begins rest) :
    ∃ t, s.act = .ok t ∧
      ∀ fuel, GivesOut (kinds ++ [.scalar cs .doubleQuoted]) (run (fuel + 1) t) := by
  obtain ⟨hcolumn, c, hsave, hc⟩ := h.outermost_save
  have houter : (-1 : Int) ≤ (s.mark.column : Int) := by omega
  obtain ⟨t, i, hact, ht⟩ := Stands.quotedLine (a := ⟨0, rest⟩) h.stands hb houter hsave
  refine ⟨t, hact, givesOut_past ht.kinds_eq ht.quiet.count ht.quiet.flows fun k hk => ?_⟩
  rw [ht.candidate] at hk
  rw [(hc k hk).2, ht.mark]
  exact ⟨(hc k hk).1, Nat.lt_succ_self _⟩

/-- Brackets end on their own line, where the candidate before them is still pending. -/
theorem Ready.brackets (b : Brackets)
    (h : Ready s (outermost (b.opens :: b.closes :: '\n' :: rest) kinds)) (hb : Begins rest) :
    ∃ s₁ t, s.act = .ok s₁ ∧ (∀ fuel, run (fuel + 1) s₁ = run fuel t) ∧
      (rest ≠ [] → Rests t (outermost rest (kinds ++ [b.starts, b.ends]))) := by
  obtain ⟨hcolumn, c, hsave, hc⟩ := h.outermost_save
  obtain ⟨hindent, hindents, _⟩ := h.outline_eq
  have houter : (-1 : Int) ≤ (s.mark.column : Int) := by omega
  have hone : s.saveCandidate.indentOne =
      { s with candidate := c, indent := s.indent, indents := s.indents } := by
    have hat : s.atCollection = false := by rw [Scanner.atCollection, hindents]
    rw [hsave, Scanner.indentOne, show Scanner.atCollection { s with candidate := c } = _ from hat,
      Bool.and_false, if_neg (by decide)]
  obtain ⟨s₁, t, hact, hfinished, hstale, hnext, ht⟩ := h.stands.brackets b houter hone
  rw [hindent, hindents] at ht
  refine ⟨s₁, t, hact, run_next hfinished hstale hnext, fun hne => ?_⟩
  have hline (k : Candidate) (hk : k ∈ c) : k.mark.line = s.mark.line :=
    congrArg Mark.line (hc k hk).2
  have hrests := Stands.rests_next (a := ⟨0, rest⟩) ht hb fun k hk =>
    ⟨(hc k hk).1, Nat.le_of_eq (hline k hk)⟩
  rwa [Ahead.view_within hne _ (by simp)] at hrests

section
variable (o : WriterOptions) (hbraces : o.emptyAsBraces = true)
include hbraces

/-- A leaf is a plain text, a quoted one or a pair of brackets, up to the end of its line. -/
theorem leaf_cases {n : Node} (hn : n.isLeaf = true) (rest : List Char) :
    (∃ cs, Scalar.isPlainSafe cs = true ∧ n.body o 0 ++ rest = cs ++ '\n' :: rest ∧
      n.isClosed = false) ∨
    (∃ cs, n.body o 0 ++ rest = Scalar.Quoted.encode cs ++ '\n' :: rest ∧
      n.tokens true = [.scalar cs .doubleQuoted]) ∨
    ∃ b : Brackets, n.body o 0 ++ rest = b.opens :: b.closes :: '\n' :: rest ∧
      n.tokens true = [b.starts, b.ends] := by
  cases n with
  | scalar text p =>
    rw [Node.body, List.append_assoc, List.singleton_append]
    obtain ⟨hsafe, hrender, hkind⟩ | ⟨hrender, hkind⟩ := render_plain_or_quoted text p
    · obtain ⟨_, hstyle⟩ := Token.Kind.scalar.inj hkind
      exact .inl ⟨_, hsafe, by rw [hrender], by rw [Node.isClosed, hstyle]; rfl⟩
    · exact .inr (.inl ⟨_, by rw [hrender], by rw [Node.tokens, hkind]⟩)
  | sequence items =>
    cases items with
    | nil => exact .inr (.inr ⟨⟨true⟩, by rw [Node.body, hbraces]; rfl, rfl⟩)
    | cons n items => simp [Node.isLeaf] at hn
  | mapping entries =>
    cases entries with
    | nil => exact .inr (.inr ⟨⟨false⟩, by rw [Node.body, hbraces]; rfl, rfl⟩)
    | cons e entries => simp [Node.isLeaf] at hn

/-- Whatever a root is, its first token can be read. -/
theorem Ready.root (n : Node) (h : Ready s (outermost (n.body o 0 ++ rest) kinds))
    (hb : Begins rest) : ∃ t, s.act = .ok t := by
  have he : Enters 0 (-1) [] (-1) [] true := .first .flush (by simp [Collected]) (by decide)
  have hleaf (hn : n.isLeaf = true) : ∃ t, s.act = .ok t := by
    obtain ⟨cs, hsafe, htext, _⟩ | ⟨cs, htext, _⟩ | ⟨b, htext, _⟩ := leaf_cases o hbraces hn rest
    · rw [htext] at h
      obtain ⟨r, hr⟩ := Plain.read_safe hsafe (Int.le_refl 0) ('\n' :: rest)
      obtain ⟨t, hact, _⟩ := h.plain hsafe .flush (by simp [Collected]) (by decide) hr
      exact ⟨t, hact⟩
    · rw [htext] at h
      obtain ⟨t, hact, _⟩ := h.quoted hb
      exact ⟨t, hact⟩
    · rw [htext] at h
      obtain ⟨t, _, hact, _⟩ := h.brackets b hb
      exact ⟨t, hact⟩
  cases n with
  | scalar text p => exact hleaf rfl
  | sequence items =>
    cases items with
    | nil => exact hleaf rfl
    | cons n items =>
      obtain ⟨t, hact, _⟩ := Ready.sequence o h he
      exact ⟨t, hact⟩
  | mapping entries =>
    cases entries with
    | nil => exact hleaf rfl
    | cons e entries =>
      obtain ⟨t, hact, _⟩ := Ready.mapping o h he
      exact ⟨t, hact⟩

/-- The first token of a root is text that a plain scalar on the line before goes on with. -/
theorem body_goes_on (n : Node) (rest : List Char) :
    ∃ c cs, n.body o 0 ++ rest = c :: cs ∧ documentMarkAhead (c :: cs) = false ∧
      (c = ':' → gapAhead cs = false) := by
  have hscalar (text : String) (p : Presentation) {tail : List Char}
      (ht : ∀ x ∈ tail.head?, x = ':' ∨ x = '\n') :
      ∃ c cs, render text p ++ tail = c :: cs ∧ documentMarkAhead (c :: cs) = false ∧
        (c = ':' → gapAhead cs = false) := by
    obtain ⟨hsafe, hrender, _⟩ | ⟨hrender, _⟩ := render_plain_or_quoted text p
    · obtain ⟨c, cs, hcs⟩ := List.exists_cons_of_ne_nil (Plain.runs_of_safe hsafe).ne_nil
      rw [hcs] at hsafe
      obtain ⟨_, _, hgap, hmark⟩ := plain_begins hsafe ht
      rw [hrender, hcs]
      exact ⟨c, _, rfl, hmark, fun hc => hgap (.inr (.inr hc))⟩
    · rw [hrender]
      exact ⟨'"', _, rfl, not_mark (by decide) (by decide) _, by simp⟩
  cases n with
  | scalar text p =>
    rw [Node.body, List.append_assoc]
    exact hscalar text p (by simp)
  | sequence items =>
    cases items with
    | nil =>
      rw [Node.body, hbraces]
      exact ⟨'[', _, rfl, not_mark (by decide) (by decide) _, by simp⟩
    | cons n items =>
      rw [Node.body, gap_inline]
      exact ⟨'-', _, rfl, not_mark_of_ne (by decide) _, by simp⟩
  | mapping entries =>
    cases entries with
    | nil =>
      rw [Node.body, hbraces]
      exact ⟨'{', _, rfl, not_mark (by decide) (by decide) _, by simp⟩
    | cons e entries =>
      rw [Node.body, List.append_assoc, keyText]
      by_cases hlong : maxImplicitKey < (render e.1.1 e.1.2).length
      · rw [if_pos hlong]
        exact ⟨'?', _, rfl, not_mark (by decide) (by decide) _, by simp⟩
      · rw [if_neg hlong, List.append_assoc]
        exact hscalar e.1.1 e.1.2 (by simp)

/-- A root whose end shows is told as it is, whatever root follows. -/
theorem Rests.closed {n : Node} (hn : n.isClosed = true) (next : Node) (hb : Begins rest)
    (hs : Rests s (outermost (n.body o 0 ++ (next.body o 0 ++ rest)) kinds)) (fuel : Nat) :
    GivesOut (kinds ++ n.tokens true) (run (fuel + 4) s) := by
  obtain ⟨hbegins, hne⟩ := body_begins o (hbraces ▸ next.tokens_bracketed) 0 rest
  obtain ⟨cs, _, _, hopen⟩ | ⟨cs, htext, hkinds⟩ | ⟨b, htext, hkinds⟩ :=
    leaf_cases o hbraces (Node.isLeaf_of_closed hn) (next.body o 0 ++ rest)
  · rw [hn] at hopen
    simp at hopen
  · rw [htext] at hs
    obtain ⟨u, hu, hrun⟩ := hs.ready (by simp [outermost])
    obtain ⟨t, hact, ht⟩ := hu.quoted hbegins
    rw [hrun t hact, hkinds]
    exact ht (fuel + 2)
  · rw [htext] at hs
    obtain ⟨u, hu, hrun⟩ := hs.ready (List.cons_ne_nil _ _)
    obtain ⟨s₁, t, hact, hends, ht⟩ := hu.brackets b hbegins
    -- the token of the next root passes the end of the line, which settles the brackets
    obtain ⟨v, hv, hrun'⟩ := (ht hne).ready hne
    obtain ⟨w, hw⟩ := Ready.root o hbraces next hv hb
    rw [hrun s₁ hact, hends, hrun' w hw, hkinds]
    exact hv.stands.givesOut_act hw (fuel + 1)

/-- A plain root goes on with the text of the next one. -/
theorem Rests.plain {text : String} {p : Presentation} (hp : p.style text = .plain) (next : Node)
    (rest : List Char)
    (hs : Rests s (outermost ((Node.scalar text p).body o 0 ++ (next.body o 0 ++ rest)) kinds)) :
    ∃ more, more ≠ [] ∧ ∀ fuel,
      GivesOut (kinds ++ [.scalar (text.toList ++ ' ' :: more) .plain]) (run (fuel + 2) s) := by
  obtain ⟨hbegins, _⟩ := body_begins o (hbraces ▸ next.tokens_bracketed) 0 rest
  obtain ⟨c, cs, hnext, hmark, hgap⟩ := body_goes_on o hbraces next rest
  rw [hnext] at hbegins hs
  rw [Node.body, List.append_assoc, List.singleton_append] at hs
  obtain ⟨hsafe, hrender, _⟩ | ⟨_, hkind⟩ := render_plain_or_quoted text p
  · rw [hrender] at hs
    obtain ⟨u, hu, hrun⟩ := hs.ready (by simp [outermost])
    obtain ⟨r, more, hr, htext, hlong⟩ := Plain.read_next_line hsafe hbegins hmark hgap
    obtain ⟨t, hact, ht⟩ := hu.plain hsafe .flush (by simp [Collected]) (by decide) hr
    refine ⟨c :: more, List.cons_ne_nil _ _, fun fuel => ?_⟩
    rw [hrun t hact, ← htext]
    exact (ht (by omega)).stays fuel
  · obtain ⟨_, hstyle⟩ := Token.Kind.scalar.inj hkind
    rw [hp] at hstyle
    exact nomatch hstyle

/-- In a block collection a leaf at its column is no key, so nothing is told of it. -/
theorem Ready.leaf {n : Node} (hn : n.isLeaf = true)
    (h : Ready s (within (n.body o 0 ++ rest) kinds)) (hb : Begins rest) :
    ∃ t f, s.act = .ok t ∧ ∀ fuel, (run (fuel + 2) t).failure = some f ∧
      (run (fuel + 2) t).tokens.map Token.kind = kinds := by
  obtain ⟨hcolumn, hsave⟩ := h.within_save
  obtain ⟨hindent, hindents, _⟩ := h.outline_eq
  have hhere : (0 : Int) ≤ (s.mark.column : Int) := Int.natCast_nonneg _
  have hw : Within 0 [⟨-1, true⟩] 0 [⟨-1, true⟩] := .flush
  obtain ⟨cs, hsafe, htext, _⟩ | ⟨cs, htext, _⟩ | ⟨b, htext, _⟩ := leaf_cases o hbraces hn rest
  · rw [htext] at h
    obtain ⟨t, i, hact, ht⟩ := Stands.plainLine (a := ⟨0, rest⟩) h.stands hsafe hb hhere hw
      (collected_collection _ _) (.inr (by simp)) hsave
    obtain ⟨f, hstop⟩ := ht.stops rfl (Nat.lt_succ_self _)
    exact ⟨t, f, hact, fun fuel => hstop (fuel + 1)⟩
  · rw [htext] at h
    obtain ⟨t, i, hact, ht⟩ := Stands.quotedLine (a := ⟨0, rest⟩) h.stands hb hhere hsave
    obtain ⟨f, hstop⟩ := ht.stops rfl (Nat.lt_succ_self _)
    exact ⟨t, f, hact, fun fuel => hstop (fuel + 1)⟩
  · rw [htext] at h
    have hone : s.saveCandidate.indentOne = { s with
        candidate := some ⟨true, kinds.length, s.mark⟩
        indent := 1
        indents := [⟨0, false⟩, ⟨-1, true⟩] } := by
      have hin : (!s.inFlow && s.atCollection) = true := by
        rw [h.quiet.inFlow, Scanner.atCollection, hindents]
        rfl
      rw [hsave]
      refine (if_pos hin).trans ?_
      simp only [hindent, hindents]
      rfl
    obtain ⟨s₁, t, hact, hfinished, hstale, hnext, ht⟩ := h.stands.brackets b hhere hone
    obtain ⟨f, hstop⟩ := Stands.stops_next (a := ⟨0, rest⟩) rfl ht hb rfl (by simp)
    refine ⟨s₁, f, hact, fun fuel => ?_⟩
    rw [run_next hfinished hstale hnext]
    exact hstop fuel

end
end

end YamlCodec.Token
