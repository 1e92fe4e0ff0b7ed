import YamlCodec.Proofs.Writer.Transition

/-!
# What became of events

A writer that goes on after errors leaves behind for each event whether it was taken, refused, or not
written in full. Refused events leave no other trace: the state and the sink are those of a run without
them.
-/

set_option autoImplicit false

namespace YamlCodec.Writer

inductive Fate where
  | taken
  /-- Its place among the events was wrong. -/
  | refused
  /-- The sink gave out. -/
  | failed
  deriving DecidableEq

def Fate.ofError : Option Error → Fate
  | none => .taken
  | some (.refused _) => .refused
  | some _ => .failed

/-- Events with what became of each. -/
abbrev History := List (Event × Fate)

namespace History

def taken (h : History) : List Event :=
  h.filterMap fun r => if r.2 = .taken then some r.1 else none

/-- The events that were taken or failed. -/
def attempted (h : History) : List Event :=
  h.filterMap fun r => if r.2 = .refused then none else some r.1

@[simp] theorem taken_nil : taken [] = [] := rfl

theorem taken_cons (e : Event) (f : Fate) (h : History) :
    taken ((e, f) :: h) = if f = .taken then e :: h.taken else h.taken := by
  rw [taken, List.filterMap_cons]
  split <;> split <;> simp_all [taken]

theorem attempted_cons (e : Event) (f : Fate) (h : History) :
    attempted ((e, f) :: h) = if f = .refused then h.attempted else e :: h.attempted := by
  rw [attempted, List.filterMap_cons]
  split <;> split <;> simp_all [attempted]

theorem taken_sublist (h : History) : h.taken.Sublist (h.map Prod.fst) := by
  induction h with
  | nil => exact List.Sublist.slnil
  | cons r h ih =>
    obtain ⟨e, f⟩ := r
    rw [taken_cons, List.map_cons]
    by_cases hf : f = .taken
    · rw [if_pos hf]
      exact ih.cons_cons e
    · rw [if_neg hf]
      exact ih.cons e

end History

namespace Session

variable (o : WriterOptions)

/-- The events with what becomes of them, errors not stopping the run. -/
def history (s : Session) : List Event → History
  | [] => []
  | e :: es => (e, Fate.ofError (s.feed o e).2) :: history (s.feed o e).1 es

theorem history_events (s : Session) (es : List Event) : (s.history o es).map Prod.fst = es := by
  induction es generalizing s with
  | nil => rfl
  | cons e es ih => rw [history, List.map_cons, ih]

theorem feedAll_cons (s : Session) (e : Event) (es : List Event) :
    s.feedAll o (e :: es) = (s.feed o e).1.feedAll o es := rfl

/-- No write and no new state comes before a refusal. -/
theorem feed_of_refused {s t : Session} {e : Event} {r : Refusal}
    (h : s.feed o e = (t, some (.refused r))) : t = s := by
  rw [feed_eq] at h
  split at h
  · exact (Prod.mk.inj h).1.symm
  · split at h
    · simp at h
    · simp at h

theorem feed_fate_refused {s : Session} {e : Event} (h : Fate.ofError (s.feed o e).2 = .refused) :
    (s.feed o e).1 = s := by
  rcases hf : s.feed o e with ⟨t, _ | x⟩
  · simp [hf, Fate.ofError] at h
  · cases x with
    | refused r => exact feed_of_refused o hf
    | _ => simp [hf, Fate.ofError] at h

/-- Whatever the sink holds, the events that are refused might as well not have come. -/
theorem feedAll_attempted (s : Session) (es : List Event) :
    s.feedAll o (s.history o es).attempted = s.feedAll o es := by
  induction es generalizing s with
  | nil => rfl
  | cons e es ih =>
    rw [history, History.attempted_cons, feedAll_cons]
    by_cases hr : Fate.ofError (s.feed o e).2 = .refused
    · rw [if_pos hr, feed_fate_refused o hr, ih]
    · rw [if_neg hr, feedAll_cons, ih]

/-- A sink without a limit takes whatever is not refused. -/
theorem feedEach_taken (s : State) (w : String) (es : List Event) :
    feedEach o ⟨s, ⟨w, none⟩⟩ (history o ⟨s, ⟨w, none⟩⟩ es).taken =
      some (feedAll o ⟨s, ⟨w, none⟩⟩ es) := by
  induction es generalizing s w with
  | nil => rfl
  | cons e es ih =>
    rw [history, History.taken_cons, feedAll_cons]
    cases h : s.after? o e with
    | none =>
      obtain ⟨r, hr⟩ := feed_refused w h
      simp only [hr, Fate.ofError]
      exact ih s w
    | some t =>
      simp only [feed_taken w h, Fate.ofError, if_true, feedEach]
      exact ih t _

theorem feedAll_of_feedEach {s t : Session} {es : List Event} (h : s.feedEach o es = some t) :
    s.feedAll o es = t := by
  induction es generalizing s with
  | nil => exact Option.some.inj h
  | cons e es ih =>
    rw [feedEach] at h
    split at h
    · rename_i u hu
      rw [feedAll_cons, hu]
      exact ih h
    · simp at h

end Session
end YamlCodec.Writer
