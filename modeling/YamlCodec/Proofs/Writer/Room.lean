import YamlCodec.Encode
import YamlCodec.Proofs.Writer.Transition

/-!
# Sinks with limited room

A sink with room for some characters is given the same characters as one without a limit, up to the
first that does not fit. That write ends the encoding, so nothing is written after it, and an error that
would have come later is not met.
-/

set_option autoImplicit false

namespace YamlCodec.Writer

namespace Sink

/-- A sink that had room for `n` characters when it was offered these. -/
def offered (w : String) (n : Nat) (cs : List Char) : Sink :=
  ⟨w ++ String.ofList (cs.take n), some (n - cs.length)⟩

theorem offered_nil (w : String) (n : Nat) : offered w n [] = ⟨w, some n⟩ := by
  simp [offered]

theorem offered_fits {n : Nat} {cs : List Char} (h : cs.length ≤ n) (w : String) :
    offered w n cs = ⟨w ++ String.ofList cs, some (n - cs.length)⟩ := by
  rw [offered, List.take_of_length_le h]

/-- Characters that fit are followed by others. -/
theorem offered_append {n : Nat} {cs : List Char} (h : cs.length ≤ n) (w : String)
    (more : List Char) :
    offered w n (cs ++ more) = offered (w ++ String.ofList cs) (n - cs.length) more := by
  rw [offered, offered, List.take_append, List.take_of_length_le h, String.ofList_append,
    String.append_assoc, List.length_append, Nat.sub_add_eq]

/-- Where the first do not fit, the others do not matter. -/
theorem offered_past {n : Nat} {cs : List Char} (h : n < cs.length) (w : String)
    (more : List Char) : offered w n (cs ++ more) = offered w n cs := by
  have hlength : (cs ++ more).length = cs.length + more.length := List.length_append
  rw [offered, offered, List.take_append_of_le_length (Nat.le_of_lt h),
    Nat.sub_eq_zero_of_le (by omega), Nat.sub_eq_zero_of_le (Nat.le_of_lt h)]

theorem take_eq (c : Chunk) (n : Nat) : c.take n = c.toList.take n := by
  cases c with
  | text cs => rfl
  | blanks k => rw [Chunk.take, Chunk.toList, List.take_replicate]

theorem length_toList (c : Chunk) : c.toList.length = c.length := by
  cases c with
  | text cs => rfl
  | blanks k => exact List.length_replicate

theorem accept_limited (w : String) (n : Nat) (c : Chunk) :
    accept ⟨w, some n⟩ c = (offered w n c.toList, decide (c.toList.length ≤ n)) := by
  rw [accept, offered, length_toList]
  by_cases h : c.length ≤ n
  · have hall : c.toList.take n = c.toList := List.take_of_length_le (length_toList c ▸ h)
    simp only [if_pos h, hall, decide_eq_true h]
  · simp only [if_neg h, take_eq, decide_eq_false h, Nat.sub_eq_zero_of_le (Nat.le_of_not_le h)]

end Sink

namespace Session
open State

/-- Actions whose output fits are performed in full. -/
theorem perform_fits {as : List Action} {n : Nat} (h : (written as).length ≤ n) (s : State)
    (w : String) :
    perform ⟨s, ⟨w, some n⟩⟩ as = (⟨settled s as, Sink.offered w n (written as)⟩, true) := by
  induction as generalizing s w n with
  | nil => rw [perform, written, settled, Sink.offered_nil]
  | cons a as ih =>
    cases a with
    | settle t => exact ih h t w
    | write c =>
      rw [written, List.length_append] at h
      have hc : c.toList.length ≤ n := by omega
      rw [perform, Sink.accept_limited, decide_eq_true hc, Sink.offered_fits hc, written, settled,
        Sink.offered_append hc]
      exact ih (by omega) s _

/-- Actions whose output does not fit write what does. -/
theorem perform_past {as : List Action} {n : Nat} (h : n < (written as).length) (s : State)
    (w : String) :
    ∃ t, perform ⟨s, ⟨w, some n⟩⟩ as = (⟨t, Sink.offered w n (written as)⟩, false) := by
  induction as generalizing s w n with
  | nil => simp [written] at h
  | cons a as ih =>
    cases a with
    | settle t => exact ih h t w
    | write c =>
      rw [written, List.length_append] at h
      by_cases hc : c.toList.length ≤ n
      · rw [perform, Sink.accept_limited, decide_eq_true hc, Sink.offered_fits hc, written,
          Sink.offered_append hc]
        exact ih (by omega) s _
      · have hpast : n < c.toList.length := Nat.lt_of_not_le hc
        refine ⟨s, ?_⟩
        rw [perform, Sink.accept_limited, decide_eq_false hc, written, Sink.offered_past hpast]

end Session

/-- What a run leaves in a sink with room for `n` characters, given what it leaves in one without a limit
after writing these: the characters that fit, and the same error unless one did not. -/
def CutAt (w : String) (n : Nat) (cs : List Char) (whole cut : Session × Option Error) : Prop :=
  cut.1.sink = Sink.offered w n cs ∧ cut.2 = if cs.length ≤ n then whole.2 else some .sinkFull

namespace CutAt

/-- Nothing is written. -/
theorem start (w : String) (n : Nat) (s : State) (e : Option Error) :
    CutAt w n [] (⟨s, ⟨w, none⟩⟩, e) (⟨s, ⟨w, some n⟩⟩, e) :=
  ⟨(Sink.offered_nil w n).symm, (if_pos n.zero_le).symm⟩

/-- What fits comes before what is cut. -/
theorem append {w : String} {n : Nat} {cs more : List Char} {whole cut : Session × Option Error}
    (hfits : cs.length ≤ n)
    (h : CutAt (w ++ String.ofList cs) (n - cs.length) more whole cut) :
    CutAt w n (cs ++ more) whole cut := by
  obtain ⟨hsink, herror⟩ := h
  refine ⟨hsink.trans (Sink.offered_append hfits w more).symm, ?_⟩
  have hiff : more.length ≤ n - cs.length ↔ (cs ++ more).length ≤ n := by
    rw [List.length_append]
    omega
  rw [herror]
  simp only [hiff]

/-- The sink gives out, and what would come later does not. -/
theorem past {n : Nat} {cs : List Char} (hpast : n < cs.length) (w : String) (more : List Char)
    (whole : Session × Option Error) (s : State) :
    CutAt w n (cs ++ more) whole (⟨s, Sink.offered w n cs⟩, some .sinkFull) := by
  refine ⟨(Sink.offered_past hpast w more).symm, (if_neg ?_).symm⟩
  rw [List.length_append]
  omega

end CutAt

end YamlCodec.Writer

namespace YamlCodec
open Writer Writer.State

/-- Following cues writes the same characters into either sink, up to the first that does not fit. -/
theorem follow_cut (o : WriterOptions) (s : State) (w : String) (cues : List Cue) :
    ∃ cs, (follow o ⟨s, ⟨w, none⟩⟩ cues).1.sink = ⟨w ++ String.ofList cs, none⟩ ∧
      ∀ n, CutAt w n cs (follow o ⟨s, ⟨w, none⟩⟩ cues) (follow o ⟨s, ⟨w, some n⟩⟩ cues) := by
  induction cues generalizing s w with
  | nil => exact ⟨[], by simp [follow], fun n => .start w n _ _⟩
  | cons cue cues ih =>
    cases cue with
    | tooDeep depth => exact ⟨[], by simp [follow], fun n => .start w n _ _⟩
    | event e =>
      cases ha : s.actions o e with
      | error r =>
        have hfeed (sink : Sink) :
            follow o ⟨s, sink⟩ (.event e :: cues) = (⟨s, sink⟩, some (.refused r)) := by
          rw [follow, Session.feed_eq, ha]
        rw [hfeed]
        refine ⟨[], by simp, fun n => ?_⟩
        rw [hfeed]
        exact .start w n s _
      | ok as =>
        have hwhole : follow o ⟨s, ⟨w, none⟩⟩ (.event e :: cues) =
            follow o ⟨settled s as, ⟨w ++ String.ofList (written as), none⟩⟩ cues := by
          rw [follow, Session.feed_eq, ha]
          simp only [Session.perform_unlimited]
        obtain ⟨cs, hsink, hcut⟩ := ih (settled s as) (w ++ String.ofList (written as))
        rw [hwhole]
        refine ⟨written as ++ cs, by rw [hsink]; simp [String.append_assoc], fun n => ?_⟩
        by_cases hfits : (written as).length ≤ n
        · have hstep : follow o ⟨s, ⟨w, some n⟩⟩ (.event e :: cues) =
              follow o ⟨settled s as,
                ⟨w ++ String.ofList (written as), some (n - (written as).length)⟩⟩ cues := by
            rw [follow, Session.feed_eq, ha]
            simp only [Session.perform_fits hfits, Sink.offered_fits hfits]
          rw [hstep]
          exact (hcut _).append hfits
        · have hpast : n < (written as).length := Nat.lt_of_not_le hfits
          obtain ⟨t, ht⟩ := Session.perform_past hpast s w
          have hstep : follow o ⟨s, ⟨w, some n⟩⟩ (.event e :: cues) =
              (⟨t, Sink.offered w n (written as)⟩, some .sinkFull) := by
            rw [follow, Session.feed_eq, ha]
            simp only [ht]
          rw [hstep]
          exact .past hpast w cs _ t

theorem encodeInto_cut (v : Value) (o : WriterOptions) :
    ∃ cs, (encodeInto .unlimited v o).1 = ⟨String.ofList cs, none⟩ ∧
      ∀ n, (encodeInto (.limited n) v o).1 = Sink.offered "" n cs ∧
        (encodeInto (.limited n) v o).2 =
          if cs.length ≤ n then (encodeInto .unlimited v o).2 else some .sinkFull := by
  by_cases hs : o.indentStep = 0
  · simp only [encodeInto, if_pos hs]
    exact ⟨[], rfl, fun n => ⟨(Sink.offered_nil "" n).symm, (if_pos n.zero_le).symm⟩⟩
  · simp only [encodeInto, if_neg hs]
    obtain ⟨cs, hsink, hcut⟩ := follow_cut o .start "" (v.documentCues o.maxDepth)
    rw [String.empty_append] at hsink
    exact ⟨cs, hsink, hcut⟩

/-- Whatever the room of a sink is, encoding a value writes as much of its text as fits, and fails for
the sink just if not all of it fits; otherwise the outcome is the same. -/
theorem limited_sink_takes_prefix (v : Value) (o : WriterOptions) (n : Nat) :
    let whole := encodeInto .unlimited v o
    let cut := encodeInto (.limited n) v o
    cut.1.written.toList = whole.1.written.toList.take n ∧
      cut.1.room = some (n - whole.1.written.toList.length) ∧
      cut.2 = if whole.1.written.toList.length ≤ n then whole.2 else some .sinkFull := by
  intro whole cut
  obtain ⟨cs, hwhole, hcut⟩ := encodeInto_cut v o
  obtain ⟨hsink, herror⟩ := hcut n
  have htext : whole.1.written.toList = cs := by
    rw [hwhole, String.toList_ofList]
  rw [htext]
  refine ⟨?_, ?_, herror⟩
  · rw [hsink, Sink.offered, String.empty_append, String.toList_ofList]
  · rw [hsink, Sink.offered]

end YamlCodec
