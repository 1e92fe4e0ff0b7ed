import Mathlib.Data.List.TakeWhile
import YamlCodec.Proofs.Token.Node
import YamlCodec.Proofs.Value.Written

/-!
# Tokens of a text

The text of a document of one node is scanned without a fault. It holds no null character, so it is
scanned as a whole; its tokens are those of the node between the start and the end of the stream.
-/

set_option autoImplicit false

namespace YamlCodec.Writer

theorem render_not_null (text : String) (p : Presentation) : '\x00' ∉ render text p := by
  obtain ⟨h, hrender, _⟩ | ⟨hrender, _⟩ := Token.render_plain_or_quoted text p
  · rw [hrender]
    intro hmem
    exact (Lexeme.Plain.safe_ordinary ((Lexeme.Plain.runs_of_safe h).safe _ hmem)).2.2 rfl
  · rw [hrender]
    intro hmem
    have := List.any_eq_false.mp (Lexeme.Quoted.encode_clean text.toList) _ hmem
    exact this (by decide)

theorem keyText_not_null (column : Nat) (k : Key) : '\x00' ∉ keyText column k := by
  have hrender := render_not_null k.1 k.2
  unfold keyText
  by_cases h : maxImplicitKey < (render k.1 k.2).length
  · simp [h, hrender]
  · simp [h, hrender]

namespace Node

theorem gap_not_null (lead : Lead) (column : Nat) (n : Node) : '\x00' ∉ n.gap lead column := by
  cases hleaf : n.isLeaf <;> cases lead <;> simp [gap, hleaf]

section
variable (o : WriterOptions)

mutual

theorem body_not_null (n : Node) (column : Nat) : '\x00' ∉ n.body o column := by
  match n with
  | scalar text p => simp [body, render_not_null]
  | sequence [] => cases h : o.emptyAsBraces <;> simp [body, h]
  | sequence (n :: rest) =>
    simp [body, gap_not_null, body_not_null n, itemBodies_not_null rest]
  | mapping [] => cases h : o.emptyAsBraces <;> simp [body, h]
  | mapping ((k, n) :: rest) =>
    simp [body, keyText_not_null, gap_not_null, body_not_null n, entryBodies_not_null rest]

theorem itemBodies_not_null (items : List Node) (column : Nat) :
    '\x00' ∉ itemBodies o column items := by
  match items with
  | [] => simp [itemBodies]
  | n :: rest =>
    simp [itemBodies, gap_not_null, body_not_null n, itemBodies_not_null rest]

theorem entryBodies_not_null (entries : List (Key × Node)) (column : Nat) :
    '\x00' ∉ entryBodies o column entries := by
  match entries with
  | [] => simp [entryBodies]
  | (k, n) :: rest =>
    simp [entryBodies, keyText_not_null, gap_not_null, body_not_null n,
      entryBodies_not_null rest]

end

theorem text_eq (n : Node) : n.text o = n.body o 0 := by
  have hgap : n.gap .lineStart 0 = [] := by
    cases hleaf : n.isLeaf <;> simp [gap, hleaf]
  rw [text, hgap, List.nil_append]

end
end Node
end YamlCodec.Writer

namespace YamlCodec.Token
open YamlCodec.Source YamlCodec.Lexeme YamlCodec.Writer

theorem Scanner.streamEnd_eq {s : Scanner} (hs : s.Quiet) (hc : s.candidate = none) :
    ∃ t, s.streamEnd = .ok t ∧ t.finished = true ∧
      t.outline.kinds = (s.outline.close (-1)).kinds ++ [.streamEnd] := by
  generalize hm : (if s.mark.column == 0 then s.mark else ⟨s.mark.index, s.mark.line + 1, 0⟩) = m
  have hquiet : ({ s with cursor := { s.cursor with mark := m } } : Scanner).Quiet :=
    ⟨hs.flows, hs.comment, hs.unfinished, hs.count, hs.property⟩
  have hdrop : ({ s with cursor := { s.cursor with mark := m } } : Scanner).dropCandidate =
      .ok { s with cursor := { s.cursor with mark := m } } := by
    unfold Scanner.dropCandidate
    rw [hc]
  obtain ⟨_, _, _, houtline⟩ := Scanner.closeBlocks_eq hquiet (-1)
  have hact : s.streamEnd = .ok { ((({ s with cursor := { s.cursor with mark := m } } :
      Scanner).closeBlocks (-1)).forbidKey.emit .streamEnd m) with finished := true } := by
    unfold Scanner.streamEnd
    simp only [hm, hquiet.inFlow, Bool.false_eq_true, if_false, hdrop, bind, Except.bind]
    rfl
  refine ⟨_, hact, rfl, ?_⟩
  have hkinds := congrArg Outline.kinds houtline
  simp only [Scanner.outline, Scanner.emit, Scanner.forbidKey, List.reverse_cons, List.map_append,
    List.map_cons, List.map_nil] at hkinds ⊢
  rw [hkinds]

theorem run_end {s : Scanner} {o : Outline} {keyAllowed : Bool}
    (h : Rests s ⟨[], -1, o, keyAllowed⟩) (fuel : Nat) :
    (run (fuel + 2) s).failure = none ∧
      (run (fuel + 2) s).tokens.map Token.kind = o.kinds ++ [.streamEnd] := by
  obtain ⟨t, happroach, hquiet, hcandidate, hrest, _, houtline, _⟩ := h.approaches
  obtain ⟨_, heq, hclosed, hout⟩ := Scanner.closeBlocks_eq hquiet (t.cursor.column : Int)
  have hcand : (t.closeBlocks t.cursor.column).candidate = none := by
    rw [heq]
    exact hcandidate
  obtain ⟨t', hend, hfinished, hkinds⟩ := Scanner.streamEnd_eq hclosed hcand
  have hact : (t.closeBlocks t.cursor.column).act = .ok t' := by
    have hempty : (t.closeBlocks t.cursor.column).rest = [] := by
      rw [heq]
      exact hrest
    unfold Scanner.act
    rw [hempty, hend]
  rw [hout, Outline.close_close _ (by omega), houtline] at hkinds
  rw [run_approach h.unfinished happroach hact (fuel + 1), run, hfinished, if_pos rfl]
  exact ⟨rfl, hkinds⟩

theorem start_leads (o : WriterOptions) (n : Node) :
    ∃ t m, Rests t ⟨[], -1, ⟨-1, [], .streamStart :: n.tokens o.emptyAsBraces⟩, true⟩ ∧
      (∀ fuel, run (m + fuel) (Scanner.start (n.body o 0)) = run fuel t) ∧
      m ≤ (n.body o 0).length := by
  have hquiet : (Scanner.start (n.body o 0)).Quiet := ⟨rfl, rfl, rfl, rfl, rfl⟩
  have hcand {P : Candidate → Prop} : ∀ k ∈ (Scanner.start (n.body o 0)).candidate, P k := by
    simp [Scanner.start]
  by_cases hblank : n.tokens o.emptyAsBraces = []
  · have hbody := (body_blank o hblank 0).1
    have hrests := rests_line hquiet (j := 0) (a := ⟨0, []⟩) hbody trivial hcand
    exact ⟨_, 0, by rw [hblank]; exact hrests, fun fuel => by rw [Nat.zero_add], Nat.zero_le _⟩
  · obtain ⟨hbegins, hne⟩ := body_begins o hblank 0 []
    rw [List.append_nil] at hbegins hne
    have hrests := rests_inline hquiet (k := 0) rfl hbegins hne hcand
    have hlead : Leads ⟨n.body o 0 ++ Ahead.text ⟨0, []⟩, (0 : Nat), ⟨-1, [], [.streamStart]⟩, true⟩
        (Ahead.view ⟨0, []⟩ ⟨-1, [], [.streamStart] ++ n.tokens o.emptyAsBraces⟩) :=
      reads_node o n _ hblank .flush (by simp [Collected]) (by decide) (.inr ⟨rfl, rfl⟩) trivial
        (by decide)
    rw [Ahead.text, List.replicate_zero, List.append_nil, List.append_nil] at hlead
    exact hlead _ hrests

theorem scan_eq {text : List Char} (h : '\x00' ∉ text) :
    scan text = run (text.length + 2) (Scanner.start text) := by
  have htake : text.takeWhile (fun c => c != '\x00') = text := by
    rw [List.takeWhile_eq_self_iff]
    intro c hc
    rw [bne_iff_ne]
    rintro rfl
    exact h hc
  unfold scan
  rw [htake]

/-- The text of a node is scanned as its tokens. -/
theorem scan_text (o : WriterOptions) (n : Node) :
    (scan (n.text o)).failure = none ∧
      (scan (n.text o)).tokens.map Token.kind =
        .streamStart :: (n.tokens o.emptyAsBraces ++ [.streamEnd]) := by
  obtain ⟨t, m, ht, hrun, hm⟩ := start_leads o n
  have hfuel : (n.body o 0).length + 2 = m + ((n.body o 0).length - m + 2) := by omega
  rw [Node.text_eq, scan_eq (Node.body_not_null o n 0), hfuel, hrun]
  exact run_end ht _

end YamlCodec.Token
