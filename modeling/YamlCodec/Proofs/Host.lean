import Mathlib.Data.List.Induction
import YamlCodec.Host
import YamlCodec.Proofs.Decode.Root
import YamlCodec.Proofs.Value.Outcome

/-!
# What a host is told of failures

A run of calls leaves at most one reason pending: that of the latest call that left one, if the reason
has not been asked for since. Calls that succeed, and those that fail for the shape of a text, do not
touch it. What a call gives otherwise does not depend on the calls before it.
-/

set_option autoImplicit false

namespace YamlCodec.Host

inductive Call where
  | parse (arg : Value)
  | stringify (arg : Value)
  | takeError

/-- What a call gives. -/
inductive Answer where
  | value (v : Option Value)
  | text (t : Option String)
  | reason (t : Option String)

def call (h : Host) : Call → Answer × Host
  | .parse arg => (.value (h.parse arg).1, (h.parse arg).2)
  | .stringify arg => (.text (h.stringify arg).1, (h.stringify arg).2)
  | .takeError => (.reason h.takeError.1, h.takeError.2)

/-- The host that a run of calls leaves. -/
def after (h : Host) (calls : List Call) : Host := calls.foldl (fun h c => (h.call c).2) h

def answers (h : Host) : List Call → List Answer
  | [] => []
  | c :: calls => (h.call c).1 :: answers (h.call c).2 calls

/-- The call leaves this reason, under a budget and options for writing. -/
inductive Leaves (b : Option Budget) (o : WriterOptions) : Call → Reason → Prop where
  /-- What is to be parsed is not a string. -/
  | notString (arg : Value) (h : ∀ text, arg ≠ .string text) : Leaves b o (.parse arg) .invalidArgument
  | noStep (v : Value) (h : o.indentStep = 0) : Leaves b o (.stringify v) .invalidArgument
  /-- The text breaks a limit. -/
  | breach (text : String) (h : OverBudget (decode text b)) :
    Leaves b o (.parse (.string text)) .outOfMemory
  /-- The value nests too deep. -/
  | tooDeep (v : Value) (hs : o.indentStep ≠ 0) (h : o.maxDepth < v.depth) :
    Leaves b o (.stringify v) .outOfMemory

/-- This is the reason of the latest call that leaves one, and it has not been asked for since. -/
def Latest (b : Option Budget) (o : WriterOptions) (calls : List Call) (r : Reason) : Prop :=
  ∃ before c later, calls = before ++ c :: later ∧ Leaves b o c r ∧
    ∀ d ∈ later, d ≠ .takeError ∧ ∀ r', ¬ Leaves b o d r'

/-- What a call gives after these. -/
inductive Answers (b : Option Budget) (o : WriterOptions) (before : List Call) : Call → Answer → Prop
  where
  | parseString (text : String) :
    Answers b o before (.parse (.string text)) (.value (decode text b).toOption)
  | parseOther (arg : Value) (h : ∀ text, arg ≠ .string text) :
    Answers b o before (.parse arg) (.value none)
  | stringify (v : Value) : Answers b o before (.stringify v) (.text (encode v o).toOption)
  | invalidArgument (h : Latest b o before .invalidArgument) :
    Answers b o before .takeError (.reason (some "Invalid argument"))
  | outOfMemory (h : Latest b o before .outOfMemory) :
    Answers b o before .takeError (.reason (some "Out of memory"))
  | nothing (h : ∀ r, ¬ Latest b o before r) : Answers b o before .takeError (.reason none)

theorem settle_fst {α : Type} (h : Host) (x : Except Error α) : (h.settle x).1 = x.toOption := by
  cases x <;> rfl

theorem record_config (h : Host) (e : Error) :
    (h.record e).budget = h.budget ∧ (h.record e).options = h.options := by
  rw [record]
  split <;> exact ⟨rfl, rfl⟩

theorem settle_config {α : Type} (h : Host) (x : Except Error α) :
    (h.settle x).2.budget = h.budget ∧ (h.settle x).2.options = h.options := by
  cases x with
  | ok a => exact ⟨rfl, rfl⟩
  | error e => exact h.record_config e

/-- No call changes the budget or the options. -/
theorem call_config (h : Host) (c : Call) :
    (h.call c).2.budget = h.budget ∧ (h.call c).2.options = h.options := by
  cases c with
  | parse arg =>
    cases arg with
    | string text => exact h.settle_config _
    | _ => exact ⟨rfl, rfl⟩
  | stringify v => exact h.settle_config _
  | takeError => exact ⟨rfl, rfl⟩

theorem after_config (h : Host) (calls : List Call) :
    (h.after calls).budget = h.budget ∧ (h.after calls).options = h.options := by
  induction calls generalizing h with
  | nil => exact ⟨rfl, rfl⟩
  | cons c calls ih =>
    have hc := h.call_config c
    have hrest := ih (h.call c).2
    exact ⟨hrest.1.trans hc.1, hrest.2.trans hc.2⟩

theorem after_append (h : Host) (calls calls' : List Call) :
    h.after (calls ++ calls') = (h.after calls).after calls' := List.foldl_append

theorem answers_length (h : Host) (calls : List Call) :
    (h.answers calls).length = calls.length := by
  induction calls generalizing h with
  | nil => rfl
  | cons c calls ih => exact congrArg Nat.succ (ih _)

/-- The answer to a call is that of the host which the calls before it leave. -/
theorem answers_at (h : Host) (before : List Call) (c : Call) (rest : List Call) :
    (h.answers (before ++ c :: rest))[before.length]? = some ((h.after before).call c).1 := by
  induction before generalizing h with
  | nil => rfl
  | cons d before ih =>
    rw [List.cons_append, answers, List.length_cons, List.getElem?_cons_succ, ih]
    rfl

/-- Items end in a failure only for a breach or a fault. -/
theorem failure_cases {m : Option Meter} {last : Location} {items : List Item} {e : Error}
    (h : (Decode.Supply.ofItems m last items).ending = .failed e) :
    (∃ x l, e = .overBudget x l) ∨ ∃ f l, e = .malformed f l := by
  induction items generalizing m last with
  | nil => simp [Decode.Supply.ofItems] at h
  | cons item items ih =>
    rw [Decode.Supply.ofItems.eq_def] at h
    cases item with
    | fault f mark =>
      obtain rfl := Decode.Ending.failed.inj h
      cases f <;> first | exact .inl ⟨_, _, rfl⟩ | exact .inr ⟨_, _, rfl⟩
    | event ev mark =>
      dsimp only at h
      split at h
      · exact .inl ⟨_, _, (Decode.Ending.failed.inj h).symm⟩
      · rw [Decode.cons_ending] at h
        exact ih h

/-- Where decoding fails for no limit, the failure is one of structure. -/
theorem decode_structural {items : List Item} {b : Option Budget} {e : Error}
    (h : decodeItems items b = .error e) (hover : ¬ OverBudget (decodeItems items b)) :
    e.kind = .structural := by
  rcases Decode.build_error h with ⟨x, l, rfl⟩ | hend | ⟨l, _, rfl⟩
  · rfl
  · rcases failure_cases hend with ⟨x, l, rfl⟩ | ⟨f, l, rfl⟩
    · exact absurd ⟨x, l, h⟩ hover
    · rfl
  · rfl

theorem pending_decode (h : Host) (text : String) (b : Option Budget) :
    (h.settle (decode text b)).2.pending =
      if OverBudget (decode text b) then some .outOfMemory else h.pending := by
  split
  · rename_i hover
    obtain ⟨x, l, he⟩ := hover
    rw [he]
    rfl
  · rename_i hover
    cases he : decode text b with
    | ok v => rfl
    | error e =>
      have hkind : e.kind = .structural := decode_structural he hover
      rw [settle, record, hkind]
      rfl

theorem pending_encode (h : Host) (v : Value) (o : WriterOptions) :
    (h.settle (encode v o)).2.pending =
      if o.indentStep = 0 then some .invalidArgument
      else if o.maxDepth < v.depth then some .outOfMemory else h.pending := by
  obtain ⟨text, hexact⟩ := v.encode_exact o
  rw [hexact]
  split
  · rfl
  · split <;> rfl

section
variable {h : Host} {c : Call}

/-- A call that leaves a reason puts it in the place of any other. -/
theorem call_leaves {r : Reason} (hc : Leaves h.budget h.options c r) :
    (h.call c).2.pending = some r := by
  cases hc with
  | notString arg hs =>
    cases arg with
    | string text => exact absurd rfl (hs text)
    | _ => rfl
  | noStep v hs => exact (h.pending_encode v h.options).trans (if_pos hs)
  | breach text hover => exact (h.pending_decode text h.budget).trans (if_pos hover)
  | tooDeep v hs hd =>
    exact (h.pending_encode v h.options).trans ((if_neg hs).trans (if_pos hd))

/-- A call that leaves none and does not ask for it keeps what is pending. -/
theorem call_keeps (hc : ∀ r, ¬ Leaves h.budget h.options c r) (he : c ≠ .takeError) :
    (h.call c).2.pending = h.pending := by
  cases c with
  | parse arg =>
    cases arg with
    | string text =>
      exact (h.pending_decode text h.budget).trans (if_neg fun hover => hc _ (.breach text hover))
    | _ => exact absurd (.notString _ nofun) (hc .invalidArgument)
  | stringify v =>
    have hs : h.options.indentStep ≠ 0 := fun hs => hc _ (.noStep v hs)
    have hd : ¬ h.options.maxDepth < v.depth := fun hd => hc _ (.tooDeep v hs hd)
    exact (h.pending_encode v h.options).trans ((if_neg hs).trans (if_neg hd))
  | takeError => exact absurd rfl he

end

/-- The latest reason is that of the last call, or what was the latest before it and is still pending. -/
theorem latest_append {b : Option Budget} {o : WriterOptions} {calls : List Call} {c : Call}
    {r : Reason} :
    Latest b o (calls ++ [c]) r ↔
      Leaves b o c r ∨ (c ≠ .takeError ∧ (∀ r', ¬ Leaves b o c r')) ∧ Latest b o calls r := by
  constructor
  · rintro ⟨before, d, later, hsplit, hd, hlater⟩
    rcases List.eq_nil_or_concat later with rfl | ⟨later, e, rfl⟩
    · obtain ⟨rfl, hlast⟩ := List.append_inj' hsplit rfl
      obtain rfl := (List.cons.inj hlast).1
      exact .inl hd
    · rw [List.concat_eq_append] at hsplit hlater
      rw [← List.cons_append, ← List.append_assoc] at hsplit
      obtain ⟨rfl, hlast⟩ := List.append_inj' hsplit rfl
      obtain rfl := (List.cons.inj hlast).1
      rw [List.forall_mem_append, List.forall_mem_singleton] at hlater
      exact .inr ⟨hlater.2, before, d, later, rfl, hd, hlater.1⟩
  · rintro (hc | ⟨hc, before, d, later, rfl, hd, hlater⟩)
    · exact ⟨calls, c, [], rfl, hc, fun _ hd => absurd hd List.not_mem_nil⟩
    · refine ⟨before, d, later ++ [c], List.append_assoc .., hd, ?_⟩
      rw [List.forall_mem_append, List.forall_mem_singleton]
      exact ⟨hlater, hc⟩

/-- What is pending after calls is the latest reason. -/
theorem pending_after (b : Option Budget) (o : WriterOptions) (calls : List Call) (r : Reason) :
    ((⟨b, o, none⟩ : Host).after calls).pending = some r ↔ Latest b o calls r := by
  induction calls using List.reverseRecOn generalizing r with
  | nil =>
    constructor
    · exact fun h => absurd h nofun
    · rintro ⟨before, c, later, hsplit, _⟩
      exact absurd hsplit (by simp)
  | append_singleton calls c ih =>
    rw [after_append, latest_append, ← ih]
    obtain ⟨hb, ho⟩ := after_config ⟨b, o, none⟩ calls
    generalize (⟨b, o, none⟩ : Host).after calls = h at hb ho
    subst hb ho
    show (h.call c).2.pending = some r ↔ _
    by_cases hc : ∃ r', Leaves h.budget h.options c r'
    · obtain ⟨r', hr'⟩ := hc
      rw [call_leaves hr']
      constructor
      · intro heq
        exact .inl (Option.some.inj heq ▸ hr')
      · rintro (hr | ⟨⟨_, hnone⟩, _⟩)
        · rw [← call_leaves hr', call_leaves hr]
        · exact absurd hr' (hnone r')
    · have hnone : ∀ r', ¬ Leaves h.budget h.options c r' := fun r' hr' => hc ⟨r', hr'⟩
      by_cases he : c = .takeError
      · subst he
        constructor
        · exact fun h => absurd h nofun
        · rintro (hr | ⟨⟨hne, _⟩, _⟩)
          · exact absurd hr (hnone r)
          · exact absurd rfl hne
      · rw [call_keeps hnone he]
        constructor
        · exact fun h => .inr ⟨⟨he, hnone⟩, h⟩
        · rintro (hr | ⟨_, hp⟩)
          · exact absurd hr (hnone r)
          · exact hp

section
variable (b : Option Budget) (o : WriterOptions) (before : List Call)

/-- A call after others has an answer that is specified for it. -/
theorem call_answers (c : Call) :
    Answers b o before c (((⟨b, o, none⟩ : Host).after before).call c).1 := by
  have hpending := pending_after b o before
  obtain ⟨hb, ho⟩ := after_config ⟨b, o, none⟩ before
  generalize (⟨b, o, none⟩ : Host).after before = h at hb ho hpending
  subst hb ho
  cases c with
  | parse arg =>
    cases arg with
    | string text =>
      show Answers _ _ _ _ (.value (h.settle (decode text h.budget)).1)
      rw [settle_fst]
      exact .parseString text
    | _ => exact .parseOther _ nofun
  | stringify v =>
    show Answers _ _ _ _ (.text (h.settle (encode v h.options)).1)
    rw [settle_fst]
    exact .stringify v
  | takeError =>
    show Answers _ _ _ _ (.reason (h.pending.map Reason.text))
    cases hr : h.pending with
    | none =>
      refine .nothing fun r hl => ?_
      exact absurd (hr.symm.trans ((hpending r).mpr hl)) nofun
    | some r =>
      cases r with
      | invalidArgument => exact .invalidArgument ((hpending _).mp hr)
      | outOfMemory => exact .outOfMemory ((hpending _).mp hr)

variable {b o before}

theorem Latest.unique {r r' : Reason} (h : Latest b o before r) (h' : Latest b o before r') :
    r = r' :=
  Option.some.inj (((pending_after b o before r).mpr h).symm.trans
    ((pending_after b o before r').mpr h'))

/-- No other answer is specified. -/
theorem Answers.unique {c : Call} {a a' : Answer} (h : Answers b o before c a)
    (h' : Answers b o before c a') : a = a' := by
  cases h with
  | parseString text =>
    cases h' with
    | parseString _ => rfl
    | parseOther _ hs => exact absurd rfl (hs text)
  | parseOther arg hs =>
    cases h' with
    | parseString text => exact absurd rfl (hs text)
    | parseOther _ _ => rfl
  | stringify v =>
    cases h' with
    | stringify _ => rfl
  | invalidArgument h =>
    cases h' with
    | invalidArgument _ => rfl
    | outOfMemory h' => exact absurd (h.unique h') nofun
    | nothing hn => exact absurd h (hn _)
  | outOfMemory h =>
    cases h' with
    | invalidArgument h' => exact absurd (h.unique h') nofun
    | outOfMemory _ => rfl
    | nothing hn => exact absurd h (hn _)
  | nothing hn =>
    cases h' with
    | invalidArgument h => exact absurd h (hn _)
    | outOfMemory h => exact absurd h (hn _)
    | nothing _ => rfl

end

/-- A text whose brackets nest too deep for the reader breaks a limit, if nothing before them settles
what is decoded. -/
theorem leaves_of_flowTooDeep {b : Option Budget} {text : String} {items xs ys rest : List Item}
    {mark : Source.Mark} (hread : Event.read text = items ++ .fault .flowTooDeep mark :: rest)
    (hopen : decodeItems (items ++ xs) b ≠ decodeItems (items ++ ys) b) (o : WriterOptions) :
    Leaves b o (.parse (.string text)) .outOfMemory := by
  refine .breach text ⟨Error.flowBreach, .ofMark mark, ?_⟩
  rw [decode, hread]
  exact Decode.decodeItems_fault hopen .flowTooDeep mark rest

/-- Whatever calls come before and after it, a call on a new host has just the answer that is specified:
what decoding or encoding gives, or the latest reason that has not been asked for. -/
theorem answers_are_specified (b : Option Budget) (o : WriterOptions) :
    (∀ calls, ((⟨b, o, none⟩ : Host).answers calls).length = calls.length) ∧
    (∀ before c rest a,
      ((⟨b, o, none⟩ : Host).answers (before ++ c :: rest))[before.length]? = some a ↔
        Answers b o before c a) ∧
    ∀ text items xs ys rest mark, Event.read text = items ++ .fault .flowTooDeep mark :: rest →
      decodeItems (items ++ xs) b ≠ decodeItems (items ++ ys) b →
      Leaves b o (.parse (.string text)) .outOfMemory := by
  refine ⟨answers_length _, fun before c rest a => ?_,
    fun _ _ _ _ _ _ hread hopen => leaves_of_flowTooDeep hread hopen o⟩
  rw [answers_at, Option.some_inj]
  constructor
  · intro h
    exact h ▸ call_answers b o before c
  · exact fun h => (call_answers b o before c).unique h

/-- A number where a string has to be, then a text with one bracket too many and one that ends too soon:
what is told is the second failure. -/
theorem answers_are_specified_brackets :
    let text := String.ofList (List.replicate 256 '[')
    let before : List Call := [.parse (.integer 7), .parse (.string text), .parse (.string "[")]
    let mark : Source.Mark := ⟨255, 1, 255⟩
    let items : List Item := [.event .streamStart .start]
    (Event.read text = items ++ [.fault .flowTooDeep mark] ∧
        decodeItems (items ++ []) none ≠ decodeItems (items ++ [.fault .flowTooDeep mark]) none) ∧
      Leaves none {} (.parse (.string text)) .outOfMemory ∧
      ((⟨none, {}, none⟩ : Host).answers (before ++ [.takeError]))[3]? =
        some (.reason (some "Out of memory")) := by
  intro text before mark items
  obtain ⟨_, hanswers, hbrackets⟩ := answers_are_specified none {}
  have hread : Event.read text = items ++ [.fault .flowTooDeep mark] := by
    rw [Event.read, String.toList_ofList]
    decide +kernel
  have hopen : decodeItems (items ++ []) none ≠
      decodeItems (items ++ [.fault .flowTooDeep mark]) none := nofun
  have hleaves := hbrackets text items _ _ _ mark hread hopen
  have hlater : ∀ r, ¬ Leaves none {} (.parse (.string "[")) r := by
    intro r h
    cases h with
    | notString _ hs => exact hs "[" rfl
    | breach _ hover => exact absurd hover (by decide +kernel)
  have hlatest : Latest none {} before .outOfMemory :=
    ⟨[.parse (.integer 7)], _, [.parse (.string "[")], rfl, hleaves,
      List.forall_mem_singleton.mpr ⟨nofun, hlater⟩⟩
  exact ⟨⟨hread, hopen⟩, hleaves, (hanswers before .takeError [] _).mpr (.outOfMemory hlatest)⟩

end YamlCodec.Host
