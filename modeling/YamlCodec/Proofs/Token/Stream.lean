import YamlCodec.Proofs.Token.Root
import YamlCodec.Proofs.Token.Scan

/-!
# Tokens of a stream

What a scan gives out for the texts of several roots, one behind the other, up to the end of the first
root or to where this should be.
-/

set_option autoImplicit false

namespace YamlCodec.Token
open YamlCodec.Source YamlCodec.Lexeme YamlCodec.Writer

theorem start_rests {content : List Char} (hb : Begins content) (hne : content ≠ []) :
    Rests (Scanner.start content) (outermost content [.streamStart]) :=
  rests_inline (s := Scanner.start content) ⟨rfl, rfl, rfl, rfl, rfl⟩ (k := 0) rfl hb hne
    (by simp [Scanner.start])

/-- These tokens come first, and then one more, or a fault. -/
def ComesTo (kinds : List Kind) : Option Kind → Stream → Prop
  | some k, ts => GivesOut (kinds ++ [k]) ts
  | none, ts => ∃ f, ts.failure = some f ∧ ts.tokens.map Token.kind = kinds

theorem ComesTo.tokens {kinds : List Kind} {k? : Option Kind} {ts : Stream} (h : ComesTo kinds k? ts) :
    ∃ after, ts.tokens.map Token.kind = kinds ++ after ∧ after.head? = k? := by
  cases k? with
  | none =>
    obtain ⟨f, _, htokens⟩ := h
    exact ⟨[], by rw [htokens, List.append_nil], rfl⟩
  | some k =>
    obtain ⟨after, hafter⟩ := h
    exact ⟨k :: after, by rw [← hafter, List.append_assoc]; rfl, rfl⟩

section
variable (o : WriterOptions) (hbraces : o.emptyAsBraces = true)
include hbraces

theorem texts_begin (roots : List Node) : Begins (roots.flatMap fun n => n.text o) := by
  cases roots with
  | nil => trivial
  | cons n roots =>
    rw [List.flatMap_cons, Node.text_eq]
    exact (body_begins o (hbraces ▸ n.tokens_bracketed) 0 _).1

omit hbraces in
theorem texts_not_null (roots : List Node) : '\x00' ∉ roots.flatMap fun n => n.text o := by
  simp only [List.mem_flatMap, not_exists, not_and]
  intro n _
  rw [Node.text_eq]
  exact Node.body_not_null o n 0

/-- The texts of two or more roots are scanned from the start of the first one. -/
theorem scan_roots (n next : Node) (more : List Node) :
    let rest := next.body o 0 ++ more.flatMap fun n => n.text o
    Rests (Scanner.start (n.body o 0 ++ rest)) (outermost (n.body o 0 ++ rest) [.streamStart]) ∧
      scan ((n :: next :: more).flatMap fun n => n.text o) =
        run ((n.body o 0 ++ rest).length + 2) (Scanner.start (n.body o 0 ++ rest)) := by
  intro rest
  have htext : ((n :: next :: more).flatMap fun n => n.text o) = n.body o 0 ++ rest := by
    simp [rest, Node.text_eq]
  obtain ⟨hbegins, hne⟩ := body_begins o (hbraces ▸ n.tokens_bracketed) 0 rest
  have hscan := scan_eq (texts_not_null o (n :: next :: more))
  rw [htext] at hscan ⊢
  exact ⟨start_rests hbegins hne, hscan⟩

theorem body_length_pos (n : Node) : 1 ≤ (n.body o 0).length := by
  have hne := (body_begins o (hbraces ▸ n.tokens_bracketed) 0 []).2
  rw [List.append_nil, ← List.length_pos_iff] at hne
  exact hne

theorem scan_closed {n : Node} (hn : n.isClosed = true) (next : Node) (more : List Node) :
    GivesOut (.streamStart :: n.tokens true)
      (scan ((n :: next :: more).flatMap fun n => n.text o)) := by
  obtain ⟨hrests, hscan⟩ := scan_roots o hbraces n next more
  have hfirst := body_length_pos o hbraces n
  have hnext := body_length_pos o hbraces next
  have hgives := Rests.closed o hbraces hn next (texts_begin o hbraces more) hrests
  rw [hscan]
  generalize more.flatMap (fun n => n.text o) = rest at *
  have hfuel : (n.body o 0 ++ (next.body o 0 ++ rest)).length + 2 =
      (n.body o 0 ++ (next.body o 0 ++ rest)).length - 2 + 4 := by
    simp only [List.length_append]
    omega
  rw [hfuel]
  exact hgives _

theorem scan_plain {text : String} {p : Presentation} (hp : p.style text = .plain) (next : Node)
    (more : List Node) :
    ∃ joined, joined ≠ [] ∧
      GivesOut [.streamStart, .scalar (text.toList ++ ' ' :: joined) .plain]
        (scan ((.scalar text p :: next :: more).flatMap fun n => n.text o)) := by
  obtain ⟨hrests, hscan⟩ := scan_roots o hbraces (.scalar text p) next more
  obtain ⟨joined, hne, hgives⟩ := Rests.plain o hbraces hp next _ hrests
  rw [hscan]
  exact ⟨joined, hne, hgives _⟩

/-- A block collection is read up to the next root, its end being left out. -/
theorem leads_open {n : Node} (hn : n.isLeaf = false) (next : Node) (rest : List Char)
    (kinds : List Kind) :
    Leads (outermost (n.body o 0 ++ (next.body o 0 ++ rest)) kinds)
      (within (next.body o 0 ++ rest) (kinds ++ (n.tokens true).dropLast)) := by
  obtain ⟨hbegins, hne⟩ := body_begins o (hbraces ▸ next.tokens_bracketed) 0 rest
  have he : Enters 0 (-1) [] (-1) [] true := .first .flush (by simp [Collected]) (by decide)
  cases n with
  | scalar text p => simp [Node.isLeaf] at hn
  | sequence items =>
    cases items with
    | nil => simp [Node.isLeaf] at hn
    | cons n items =>
      have hlead := leads_sequence (reads_node o n) (reads_items o items) he
        (a := ⟨0, next.body o 0 ++ rest⟩) hbegins (by simp [Ahead.column, hne]) kinds
      rw [Ahead.view_within hne _ (by simp), hbraces] at hlead
      rw [Node.tokens, ← List.cons_append, List.dropLast_concat]
      exact hlead
  | mapping entries =>
    cases entries with
    | nil => simp [Node.isLeaf] at hn
    | cons e entries =>
      have hlead := leads_mapping (k := e.1) (reads_node o e.2) (reads_entries o entries) he
        (a := ⟨0, next.body o 0 ++ rest⟩) hbegins (by simp [Ahead.column, hne]) kinds
      rw [Ahead.view_within hne _ (by simp), hbraces] at hlead
      rw [Node.tokens, ← List.cons_append, List.dropLast_concat]
      exact hlead

/-- In a block collection a root is taken for an entry if it is a block collection itself. -/
theorem Rests.comesTo {s : Scanner} (next : Node) {rest : List Char} (hb : Begins rest)
    {kinds : List Kind} (hs : Rests s (within (next.body o 0 ++ rest) kinds)) (fuel : Nat) :
    ComesTo kinds next.entryMark? (run (fuel + 3) s) := by
  obtain ⟨_, hne⟩ := body_begins o (hbraces ▸ next.tokens_bracketed) 0 rest
  obtain ⟨u, hu, hrun⟩ := hs.ready hne
  have hleaf (hn : next.isLeaf = true) :
      ComesTo kinds none (run (fuel + 3) s) := by
    obtain ⟨t, f, hact, ht⟩ := Ready.leaf o hbraces hn hu hb
    rw [hrun t hact]
    exact ⟨f, ht fuel⟩
  cases next with
  | scalar text p => exact hleaf rfl
  | sequence items =>
    cases items with
    | nil => exact hleaf rfl
    | cons n items =>
      obtain ⟨t, hact, ht⟩ := Ready.sequence o hu .next
      rw [hrun t hact]
      simpa [starting, ComesTo, Node.entryMark?] using ht (fuel + 2)
  | mapping entries =>
    cases entries with
    | nil => exact hleaf rfl
    | cons e entries =>
      obtain ⟨t, hact, ht⟩ := Ready.mapping o hu .next
      rw [hrun t hact]
      simpa [starting, ComesTo, Node.entryMark?] using ht (fuel + 1)

/-- The end of a block collection is not among the tokens that come before the next root. -/
theorem scan_open {n : Node} (hn : n.isLeaf = false) (next : Node) (more : List Node) :
    ComesTo (.streamStart :: (n.tokens true).dropLast) next.entryMark?
      (scan ((n :: next :: more).flatMap fun n => n.text o)) := by
  obtain ⟨hrests, hscan⟩ := scan_roots o hbraces n next more
  have hnext := body_length_pos o hbraces next
  obtain ⟨t, m, ht, hrun, hm⟩ := leads_open o hbraces hn next _ [.streamStart] _ hrests
  have hcomes := Rests.comesTo o hbraces next (texts_begin o hbraces more) ht
  rw [hscan]
  generalize more.flatMap (fun n => n.text o) = rest at *
  have hfuel : (n.body o 0 ++ (next.body o 0 ++ rest)).length + 2 =
      m + ((n.body o 0 ++ (next.body o 0 ++ rest)).length - m - 1 + 3) := by
    simp only [outermost, within, List.length_append] at hm ⊢
    omega
  rw [hfuel, hrun]
  exact hcomes _

end
end YamlCodec.Token
