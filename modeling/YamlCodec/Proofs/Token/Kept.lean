import YamlCodec.Proofs.Token.View

/-!
# Tokens that stay

A candidate for a key may put tokens before others, but never before its own position. So once no
candidate lies among the first tokens, these are given out as they are, whatever text follows and
whether or not the scan of it fails.
-/

set_option autoImplicit false

namespace YamlCodec.Token
open YamlCodec.Source YamlCodec.Lexeme

/-- The least of a number and the positions around flow collections. -/
theorem le_foldl_position {m n : Nat} {fs : List Flow} (hn : m ≤ n)
    (hf : ∀ f ∈ fs, ∀ k ∈ f.outer, m ≤ k.position) :
    m ≤ fs.foldl
      (fun n f =>
        match f.outer with
        | some k => min n k.position
        | none => n) n := by
  induction fs generalizing n with
  | nil => exact hn
  | cons f fs ih =>
    rw [List.forall_mem_cons] at hf
    refine ih ?_ hf.2
    dsimp only
    split
    · rename_i k hk
      exact Nat.le_min.mpr ⟨hn, hf.1 k hk⟩
    · exact hn

/-- No token that is still to come goes before the end of these. -/
structure Keeps (base : List Token) (s : Scanner) : Prop where
  tokens : base <+: s.tokens.reverse
  count : s.count = s.tokens.length
  candidate : ∀ k ∈ s.candidate, base.length ≤ k.position
  flows : ∀ f ∈ s.flows, ∀ k ∈ f.outer, base.length ≤ k.position

/-- The same of a step that may fail. -/
def KeepsAfter (base : List Token) (r : Except Failure Scanner) : Prop := ∀ t, r = .ok t → Keeps base t

section
variable {base : List Token} {s : Scanner}

namespace KeepsAfter

theorem ok (h : Keeps base s) : KeepsAfter base (.ok s) := by
  intro t ht
  obtain rfl := Except.ok.inj ht
  exact h

theorem fail (f : Fault) : KeepsAfter base (s.fail f) := fun _ ht => nomatch ht

theorem bind {α : Type} {x : Except Failure α} {f : α → Except Failure Scanner}
    (h : ∀ a, x = .ok a → KeepsAfter base (f a)) : KeepsAfter base (x >>= f) := by
  cases x with
  | error e => exact fun _ ht => nomatch ht
  | ok a => exact h a rfl

theorem ite {c : Prop} [Decidable c] {x y : Except Failure Scanner} (hx : KeepsAfter base x)
    (hy : KeepsAfter base y) : KeepsAfter base (if c then x else y) := by
  split
  · exact hx
  · exact hy

end KeepsAfter

namespace Keeps

theorem congr {t : Scanner} (h : Keeps base s) (ht : t.tokens = s.tokens) (hn : t.count = s.count)
    (hk : t.candidate = s.candidate) (hf : t.flows = s.flows) : Keeps base t :=
  ⟨ht ▸ h.tokens, by rw [hn, ht, h.count], hk ▸ h.candidate, hf ▸ h.flows⟩

theorem ite {c : Prop} [Decidable c] {t : Scanner} (hs : Keeps base s) (ht : Keeps base t) :
    Keeps base (if c then s else t) := by
  split
  · exact hs
  · exact ht

theorem length_le (h : Keeps base s) : base.length ≤ s.count := by
  rw [h.count]
  exact Nat.le_trans h.tokens.length_le (Nat.le_of_eq List.length_reverse)

variable (h : Keeps base s)
include h

theorem advance (n : Nat) : Keeps base (s.advance n) := h.congr rfl rfl rfl rfl

theorem allowKey : Keeps base s.allowKey := h.congr rfl rfl rfl rfl

theorem forbidKey : Keeps base s.forbidKey := h.congr rfl rfl rfl rfl

theorem setIndents (i : Int) (is : List Indent) : Keeps base { s with indent := i, indents := is } :=
  h.congr rfl rfl rfl rfl

theorem setCandidate {c : Option Candidate} (hc : ∀ k ∈ c, base.length ≤ k.position) :
    Keeps base { s with candidate := c } :=
  ⟨h.tokens, h.count, hc, h.flows⟩

theorem setFlows {fs : List Flow} (hf : ∀ f ∈ fs, ∀ k ∈ f.outer, base.length ≤ k.position) :
    Keeps base { s with flows := fs } :=
  ⟨h.tokens, h.count, h.candidate, hf⟩

theorem emit (kind : Kind) (m : Mark) : Keeps base (s.emit kind m) := by
  refine ⟨?_, congrArg Nat.succ h.count, h.candidate, h.flows⟩
  rw [Scanner.emit, List.reverse_cons]
  exact h.tokens.trans (List.prefix_append _ _)

theorem insert {p : Nat} (hp : base.length ≤ p) (kind : Kind) (m : Mark) :
    Keeps base (s.insert p kind m) := by
  have hcount := h.count
  refine ⟨?_, ?_, h.candidate, h.flows⟩
  · -- in order, the tokens before the position are those of before
    have hreverse : (s.insert p kind m).tokens.reverse =
        s.tokens.reverse.take (s.tokens.length - (s.count - p)) ++
          ⟨kind, m⟩ :: (s.tokens.take (s.count - p)).reverse := by
      rw [Scanner.insert, List.reverse_append, List.reverse_cons, List.reverse_drop,
        List.append_assoc, List.singleton_append]
    rw [hreverse]
    refine List.IsPrefix.trans ?_ (List.prefix_append _ _)
    rw [List.prefix_take_iff]
    have hle := h.length_le
    exact ⟨h.tokens, by omega⟩
  · simp only [Scanner.insert, List.length_append, List.length_cons, List.length_take,
      List.length_drop]
    omega

theorem saveCandidate : Keeps base s.saveCandidate := by
  rw [Scanner.saveCandidate]
  refine (h.setCandidate ?_).ite h
  intro k hk
  obtain rfl := Option.some.inj hk
  exact h.length_le

theorem dropCandidate : KeepsAfter base s.dropCandidate := by
  rw [Scanner.dropCandidate]
  split
  · exact .ite (.fail _) (.ok (h.setCandidate (by simp)))
  · exact .ok h

theorem dropStale : KeepsAfter base s.dropStale := by
  rw [Scanner.dropStale]
  split
  · exact .ite h.dropCandidate (.ok h)
  · exact .ok h

theorem leave (column : Int) (is : List Indent) : Keeps base (Scanner.leave column is s) := by
  induction is generalizing s with
  | nil => exact h
  | cons i is ih =>
    rw [Scanner.leave]
    refine Keeps.ite (ih ?_) h
    exact ((h.setIndents i.outer is).emit .blockEnd _).ite (h.setIndents i.outer is)

theorem closeBlocks (column : Int) : Keeps base (s.closeBlocks column) := h.ite (h.leave column _)

theorem indentOne : Keeps base s.indentOne := (h.setIndents _ _).ite h

theorem outdentSteps : Keeps base s.outdentSteps := by
  rw [Scanner.outdentSteps]
  generalize s.indents = is
  induction is generalizing s with
  | nil => exact h
  | cons i is ih =>
    rw [Scanner.leaveSteps]
    exact h.ite (ih (h.setIndents i.outer is))

theorem openBlock (column : Nat) (position : Option Nat)
    (hp : ∀ p ∈ position, base.length ≤ p) (kind : Kind) (m : Mark) :
    Keeps base (s.openBlock column position kind m) := by
  rw [Scanner.openBlock]
  refine h.ite ?_
  extract_lets w
  have hw : Keeps base w := by
    unfold w
    split
    · exact (h.setIndents _ _).ite h
    · exact h
  refine Keeps.ite ?_ hw
  have hopened := hw.setIndents column (⟨w.indent, true⟩ :: w.indents)
  cases position with
  | none => exact hopened.emit kind m
  | some p => exact hopened.insert (hp p rfl) kind m

theorem endPair : Keeps base s.endPair := by
  rw [Scanner.endPair]
  split
  · rename_i f fs hflows
    refine Keeps.ite ?_ h
    have hall := h.flows
    rw [hflows, List.forall_mem_cons] at hall
    have hemitted := h.emit .flowMappingEnd s.mark
    exact ⟨hemitted.tokens, hemitted.count, hemitted.candidate, List.forall_mem_cons.mpr hall⟩
  · exact h

theorem markPair : Keeps base s.markPair := by
  rw [Scanner.markPair]
  split
  · rename_i f fs hflows
    have hall := h.flows
    rw [hflows, List.forall_mem_cons] at hall
    exact h.setFlows (List.forall_mem_cons.mpr hall)
  · exact h

theorem trail {r : Scanner × Lexeme.Trailing} (hr : s.trail = .ok r) : Keeps base r.1 := by
  rw [Scanner.trail] at hr
  split at hr
  · exact nomatch hr
  · obtain rfl := Except.ok.inj hr
    exact h.advance _

theorem toToken : KeepsAfter base s.toToken := by
  rw [Scanner.toToken]
  exact .ite (.fail _) (.ite (.fail _) (.ok (h.congr rfl rfl rfl rfl)))

/-- Whatever is read next, the tokens stay. -/
theorem streamEnd : KeepsAfter base s.streamEnd := by
  unfold Scanner.streamEnd
  extract_lets m m' cursor t
  have ht : Keeps base t := h.congr rfl rfl rfl rfl
  refine .ite (.fail _) (.bind fun u hu => ?_)
  exact .ok ((((ht.dropCandidate u hu).closeBlocks _).forbidKey.emit _ _).congr rfl rfl rfl rfl)

theorem directive : KeepsAfter base s.directive := by
  refine .bind fun t ht => .bind fun d _ => ?_
  exact .ok ((((h.closeBlocks _).dropCandidate t ht).forbidKey.advance _).emit _ _)

theorem documentMark (kind : Kind) : KeepsAfter base (s.documentMark kind) := by
  refine .bind fun t ht => ?_
  exact .ok ((((h.closeBlocks _).dropCandidate t ht).forbidKey.advance _).emit _ _)

theorem documentEnd : KeepsAfter base s.documentEnd := by
  refine .bind fun t ht => .bind fun r hr => ?_
  exact .ite (.ok ((h.documentMark _ t ht).trail hr)) (.fail _)

theorem flowStart (sequence : Bool) : KeepsAfter base (s.flowStart sequence) := by
  unfold Scanner.flowStart
  refine .ite (.fail _) (.bind fun r hr => ?_)
  have hsaved := h.saveCandidate.indentOne
  have hentered : Keeps base
      { s.saveCandidate.indentOne with
        flows := ⟨sequence, false, s.saveCandidate.indentOne.candidate⟩ ::
          s.saveCandidate.indentOne.flows
        candidate := none
        braced := s.saveCandidate.indentOne.braced || !sequence } :=
    ⟨hsaved.tokens, hsaved.count, by simp,
      List.forall_mem_cons.mpr ⟨hsaved.candidate, hsaved.flows⟩⟩
  exact .ok (((hentered.allowKey.advance 1).trail hr).emit _ _)

theorem flowEnd (sequence : Bool) : KeepsAfter base (s.flowEnd sequence) := by
  unfold Scanner.flowEnd
  extract_lets m
  split
  · exact .fail _
  · rename_i f fs hflows
    have hall := h.flows
    rw [hflows, List.forall_mem_cons] at hall
    have hpair := h.endPair.ite (c := sequence = true) h
    extract_lets left
    have hleft : Keeps base left := ⟨hpair.tokens, hpair.count, hall.1, hall.2⟩
    refine .bind fun r hr => ?_
    have htrail := (hleft.forbidKey.advance 1).trail hr
    have hadjacent : Keeps base { r.1 with adjacent := r.1.mark.index } :=
      htrail.congr rfl rfl rfl rfl
    exact .ok ((hadjacent.ite htrail).emit _ _)

theorem flowEntry : KeepsAfter base s.flowEntry := by
  refine .bind fun t ht => .bind fun r hr => ?_
  exact .ok ((((h.dropCandidate t ht).endPair.allowKey.advance 1).trail hr).emit _ _)

theorem blockEntry : KeepsAfter base s.blockEntry := by
  unfold Scanner.blockEntry
  refine .ite (.fail _) (.ite (.fail _) (.ite (.fail _) (.bind fun r hr => .ite (.fail _) ?_)))
  have htrail := ((h.advance 1).openBlock s.mark.column none (by simp) .blockSequenceStart s.mark).trail hr
  refine .bind fun t ht => ?_
  exact .ok (((htrail.indentOne.ite htrail).dropCandidate t ht).allowKey.emit _ _)

theorem explicitKey : KeepsAfter base s.explicitKey := by
  unfold Scanner.explicitKey
  extract_lets m t u
  have hu : Keeps base u :=
    (h.openBlock m.column none (by simp) .blockMappingStart m).congr rfl rfl rfl rfl
  refine .ite (.fail _) (.bind fun v hv => ?_)
  have hdropped := hu.dropCandidate v hv
  have hkey := (hdropped.forbidKey.ite (c := v.inFlow = true) hdropped.allowKey).advance 1
  exact .ite (.fail _) (.ite (.fail _) (.ok ((hkey.advance _).emit _ _)))

theorem keyBefore {k : Candidate} (hk : base.length ≤ k.position) (colon : Mark) (pair : Bool) :
    KeepsAfter base (s.keyBefore k colon pair) := by
  unfold Scanner.keyBefore
  have hkey := h.insert hk .key k.mark
  have hpair := (hkey.insert hk .flowMappingStart k.mark).ite (c := pair = true) hkey
  refine .ite (.fail _) (.ok ?_)
  have hopen := Keeps.openBlock hpair k.mark.column (some k.position) (by simpa using hk)
    .blockMappingStart k.mark
  exact hopen.indentOne.forbidKey.setCandidate (by simp)

theorem valueAlone (colon : Mark) (pair : Bool) : KeepsAfter base (s.valueAlone colon pair) := by
  unfold Scanner.valueAlone
  have hpair := (h.emit .flowMappingStart colon).ite (c := pair = true) h
  refine .ite (.ok hpair.indentOne.forbidKey) (.ite (.fail _) (.ok ?_))
  exact (hpair.openBlock colon.column none (by simp) .blockMappingStart colon).indentOne.allowKey

theorem value : KeepsAfter base s.value := by
  unfold Scanner.value
  extract_lets m pair t tabbed emitted settle
  have ht : Keeps base t := (h.markPair.ite (c := pair = true) h).advance 1
  have hsettle (r : Scanner × Lexeme.Trailing) (hr : Keeps base r.1) :
      KeepsAfter base (settle r) := by
    refine .ite (.fail _) ?_
    split
    · rename_i k hk
      exact .bind fun u hu => .ok ((hr.keyBefore (hr.candidate k hk) m pair u hu).emit _ _)
    · exact .bind fun u hu => .ok ((hr.valueAlone m pair u hu).emit _ _)
  exact .ite (.bind fun r hr => hsettle r (ht.trail hr)) (hsettle (t, _) ht)

theorem adjacentValue : KeepsAfter base s.adjacentValue := .ite (.fail _) h.value

theorem anchor (isAlias : Bool) : KeepsAfter base (s.anchor isAlias) :=
  .ite (.fail _) (.ok ((h.saveCandidate.forbidKey.advance _).emit _ _))

theorem tag : KeepsAfter base s.tag := by
  refine .bind fun w _ => .ite (.ok ?_) (.fail _)
  exact (h.saveCandidate.forbidKey.advance _).emit _ _

theorem blockScalar (folded : Bool) : KeepsAfter base (s.blockScalar folded) := by
  refine .bind fun r _ => .ok ?_
  exact (h.saveCandidate.allowKey.outdentSteps.advance _).emit _ _

theorem quotedScalar (quote : Quoted.Quote) : KeepsAfter base (s.quotedScalar quote) := by
  unfold Scanner.quotedScalar
  refine .bind fun text _ => .bind fun r hr => .ite (.bind fun u hu => ?_) (.fail _)
  have htrail := (h.saveCandidate.forbidKey.advance _).trail hr
  have hadjacent : Keeps base { u with adjacent := u.mark.index } :=
    (htrail.toToken u hu).congr rfl rfl rfl rfl
  exact .ok (hadjacent.emit _ _)

theorem plainScalar : KeepsAfter base s.plainScalar := by
  unfold Scanner.plainScalar
  extract_lets m t
  have ht : Keeps base t := h.saveCandidate.forbidKey.outdentSteps
  refine .ite (.fail _) (.ite (.fail _) (.bind fun r _ => .ok ?_))
  have hread := ht.advance r.length
  have hcrossed := hread.allowKey.ite (c := r.crossed = true) hread
  generalize (if r.crossed = true then (t.advance r.length).allowKey else t.advance r.length) = u
    at hcrossed
  have hcommented : Keeps base { u with comment := some u.mark.line } :=
    hcrossed.congr rfl rfl rfl rfl
  exact (hcommented.ite hcrossed).emit _ _

theorem token (c : Char) (cs : List Char) : KeepsAfter base (s.token c cs) := by
  unfold Scanner.token
  exact .ite (h.flowStart _) (.ite (h.flowStart _) (.ite (h.flowEnd _) (.ite (h.flowEnd _)
    (.ite h.flowEntry (.ite h.blockEntry (.ite h.explicitKey (.ite h.value (.ite h.adjacentValue
    (.ite (h.anchor _) (.ite (h.anchor _) (.ite h.tag (.ite (h.blockScalar _)
    (.ite (h.blockScalar _) (.ite (h.quotedScalar _) (.ite (h.quotedScalar _)
    (.ite (.fail _) h.plainScalar))))))))))))))))

theorem act : KeepsAfter base s.act := by
  unfold Scanner.act
  split
  · exact h.streamEnd
  · exact .ite h.directive (.ite (h.documentMark _) (.ite h.documentEnd
      (.ite (.fail _) (h.token _ _))))

theorem next : KeepsAfter base s.next :=
  .bind fun t ht => .bind fun u hu =>
    ((h.toToken t ht).dropStale u hu).closeBlocks u.cursor.column |>.act

theorem length_le_settled : base.length ≤ s.settled := by
  have hstart : base.length ≤ (match s.candidate with
      | some k => k.position
      | none => s.count) := by
    split
    · rename_i k hk
      exact h.candidate k hk
    · exact h.length_le
  exact le_foldl_position hstart h.flows

theorem released : base <+: s.released :=
  List.prefix_take_iff.mpr ⟨h.tokens, h.length_le_settled⟩

/-- However the scan goes on, these are the first tokens it gives out. -/
theorem run (fuel : Nat) : base <+: (run fuel s).tokens := by
  induction fuel generalizing s with
  | zero => exact h.tokens
  | succ fuel ih =>
    rw [Token.run]
    split
    · exact h.tokens
    · split
      · exact h.released
      · rename_i t ht
        have hstale := h.dropStale t ht
        split
        · exact hstale.released
        · rename_i u hu
          exact ih (hstale.next u hu)

end Keeps
end
end YamlCodec.Token
