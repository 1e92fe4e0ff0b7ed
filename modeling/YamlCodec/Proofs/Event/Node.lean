import YamlCodec.Event.Reader
import YamlCodec.Proofs.Writer.Reading

/-!
# Events of a node

From the tokens of a node a reader tells the parts of its tree. The proof follows the node: each of
its collections is entered, told entry by entry and left for the phase around it.
-/

set_option autoImplicit false

namespace YamlCodec.Event.Reader
open YamlCodec.Token YamlCodec.Writer

/-- The reader before other tokens, in another phase. -/
def before (r : Reader) (tokens : List Token) (phase : Phase) (stack : List Phase) : Reader :=
  { r with tokens, phase, stack }

/-- A reader tells parts, one at each step, and becomes another. -/
inductive Tells : Reader → List Decode.Part.Kind → Reader → Prop where
  | nil (r : Reader) : Tells r [] r
  | cons {r t : Reader} {s : Step} {k : Decode.Part.Kind} {ks : List Decode.Part.Kind}
      (hs : r.step = .ok s) (hk : Decode.Part.ofEvent? s.event = some k)
      (ht : Tells s.reader ks t) : Tells r (k :: ks) t

/-- A step that is taken tells the first of these parts, and the reader after it the others. -/
def Gives (x : Except Failure Step) (ks : List Decode.Part.Kind) (t : Reader) : Prop :=
  ∃ s k ls, x = .ok s ∧ Decode.Part.ofEvent? s.event = some k ∧ Tells s.reader ls t ∧ ks = k :: ls

theorem Gives.tells {r t : Reader} {ks : List Decode.Part.Kind} (h : Gives r.step ks t) :
    Tells r ks t := by
  obtain ⟨s, k, ls, hs, hk, ht, rfl⟩ := h
  exact .cons hs hk ht

theorem Tells.gives {r t : Reader} {k : Decode.Part.Kind} {ks : List Decode.Part.Kind}
    (h : Tells r (k :: ks) t) : Gives r.step (k :: ks) t := by
  cases h with
  | cons hs hk ht => exact ⟨_, k, ks, hs, hk, ht, rfl⟩

theorem Tells.append {r s t : Reader} {ks ls : List Decode.Part.Kind} (hr : Tells r ks s)
    (hs : Tells s ls t) : Tells r (ks ++ ls) t := by
  induction hr with
  | nil r => exact hs
  | cons hstep hk _ ih => exact .cons hstep hk (ih hs)

theorem Gives.append {x : Except Failure Step} {s t : Reader} {ks ls : List Decode.Part.Kind}
    (hx : Gives x ks s) (hs : Tells s ls t) : Gives x (ks ++ ls) t := by
  obtain ⟨u, k, ks, hu, hk, ht, rfl⟩ := hx
  exact ⟨u, k, ks ++ ls, hu, hk, ht.append hs, rfl⟩

theorem Gives.cons {x : Except Failure Step} {s : Step} {k : Decode.Part.Kind} {t : Reader}
    {ks : List Decode.Part.Kind} (hx : x = .ok s) (hk : Decode.Part.ofEvent? s.event = some k)
    (hs : Tells s.reader ks t) : Gives x (k :: ks) t :=
  ⟨s, k, ks, hx, hk, hs, rfl⟩

theorem items_step {r : Reader} {s : Step} (h : r.step = .ok s) (fuel : Nat) :
    items (fuel + 1) r = .event s.event s.mark :: items fuel s.reader := by
  rw [items]
  split
  · rename_i hphase
    simp [step, hphase, throw, throwThe, MonadExceptOf.throw] at h
  · rw [h]

section
variable (r : Reader) {u : Token} (ts : List Token) (phase : Phase) (stack : List Phase)
  (m : Source.Mark)

theorem documentStart_bare (hu : OpensNode u.kind) :
    (r.before (u :: ts) (.documentStart true) stack).step =
      .ok ⟨.documentStart, u.mark,
        ({ r with handles := [] } : Reader).before (u :: ts) .node (.documentEnd :: stack)⟩ := by
  obtain ⟨kind, m'⟩ := u
  cases kind <;> first | exact hu.elim | rfl

theorem blockSequence_item (hu : OpensNode u.kind) :
    (r.before (⟨.blockEntry, m⟩ :: u :: ts) phase stack).blockSequence =
      (r.before (u :: ts) phase (.blockSequence false :: stack)).node true false := by
  obtain ⟨kind, m'⟩ := u
  cases kind <;> first | exact hu.elim | rfl

theorem blockSequence_blank (hu : u.kind = .blockEntry ∨ u.kind = .blockEnd) :
    (r.before (⟨.blockEntry, m⟩ :: u :: ts) phase stack).blockSequence =
      .ok ⟨missing, m, r.before (u :: ts) (.blockSequence false) stack⟩ := by
  obtain ⟨kind, m'⟩ := u
  rcases hu with rfl | rfl <;> rfl

theorem blockKey_item (hu : OpensNode u.kind) :
    (r.before (⟨.key, m⟩ :: u :: ts) phase stack).blockKey =
      (r.before (u :: ts) phase (.blockValue :: stack)).node true true := by
  obtain ⟨kind, m'⟩ := u
  cases kind <;> first | exact hu.elim | rfl

theorem blockValue_item (hu : OpensNode u.kind) :
    (r.before (⟨.value, m⟩ :: u :: ts) phase stack).blockValue =
      (r.before (u :: ts) phase (.blockKey false :: stack)).node true true := by
  obtain ⟨kind, m'⟩ := u
  cases kind <;> first | exact hu.elim | rfl

theorem blockValue_blank (hu : u.kind = .key ∨ u.kind = .blockEnd) :
    (r.before (⟨.value, m⟩ :: u :: ts) phase stack).blockValue =
      .ok ⟨missing, m, r.before (u :: ts) (.blockKey false) stack⟩ := by
  obtain ⟨kind, m'⟩ := u
  rcases hu with rfl | rfl <;> rfl

end

theorem tokens_head {us : List Token} {k : Token.Kind} {ks : List Token.Kind}
    (h : us.map Token.kind = k :: ks) : ∃ m vs, us = ⟨k, m⟩ :: vs ∧ vs.map Token.kind = ks := by
  obtain ⟨⟨_, m⟩, vs, rfl, rfl, hvs⟩ := List.map_eq_cons_iff.mp h
  exact ⟨m, vs, rfl, hvs⟩

section
variable (braces : Bool) (r : Reader)

/-- After the mark of an entry comes its node, or nothing. -/
theorem gives_entry {n : Node} {ts rest : List Token} {phase p : Phase} {ps : List Phase}
    {indentless : Bool} {x : Except Failure Step} {ks : List Decode.Part.Kind} {t : Reader}
    (hts : ts.map Token.kind = n.tokens braces)
    (hnode : n.tokens braces ≠ [] →
      Gives ((r.before (ts ++ rest) phase (p :: ps)).node true indentless) (n.tree braces).kinds
        (r.before rest p ps))
    (hitem : ∀ u us, OpensNode u.kind → ts ++ rest = u :: us →
      x = (r.before (u :: us) phase (p :: ps)).node true indentless)
    (hblank : ts = [] → ∃ m, x = .ok ⟨missing, m, r.before rest p ps⟩)
    (hrest : Tells (r.before rest p ps) ks t) : Gives x ((n.tree braces).kinds ++ ks) t := by
  rcases n.tokens_opens braces with ⟨hnone, htree⟩ | ⟨k, ls, hopens, hk⟩
  · rw [hnone] at hts
    obtain ⟨m, hx⟩ := hblank (List.map_eq_nil_iff.mp hts)
    rw [htree]
    exact Gives.cons hx rfl hrest
  · have hne : n.tokens braces ≠ [] := by
      rw [hopens]
      exact List.cons_ne_nil k ls
    have hgives := hnode hne
    rw [hopens] at hts
    obtain ⟨m, us, rfl, _⟩ := tokens_head hts
    rw [hitem ⟨k, m⟩ (us ++ rest) hk rfl]
    exact hgives.append hrest

mutual

/-- The tokens of a node are told as the parts of its tree. -/
theorem gives_node (n : Node) (hn : n.tokens braces ≠ []) {ts : List Token}
    (h : ts.map Token.kind = n.tokens braces) (us : List Token) (indentless : Bool)
    (phase p : Phase) (ps : List Phase) :
    Gives ((r.before (ts ++ us) phase (p :: ps)).node true indentless) (n.tree braces).kinds
      (r.before us p ps) := by
  match n with
  | .scalar text style =>
    obtain ⟨m, ts, rfl, hts⟩ := tokens_head h
    obtain rfl := List.map_eq_nil_iff.mp hts
    refine Gives.cons rfl ?_ (.nil _)
    exact congrArg (fun t => some (Decode.Part.Kind.scalar t _ none)) String.ofList_toList
  | .sequence [] =>
    cases braces with
    | true =>
      obtain ⟨m, ts, rfl, hts⟩ := tokens_head h
      obtain ⟨m', ts, rfl, hnil⟩ := tokens_head hts
      obtain rfl := List.map_eq_nil_iff.mp hnil
      exact Gives.cons rfl rfl (.cons rfl rfl (.nil _))
    | false => exact absurd rfl hn
  | .mapping [] =>
    cases braces with
    | true =>
      obtain ⟨m, ts, rfl, hts⟩ := tokens_head h
      obtain ⟨m', ts, rfl, hnil⟩ := tokens_head hts
      obtain rfl := List.map_eq_nil_iff.mp hnil
      exact Gives.cons rfl rfl (.cons rfl rfl (.nil _))
    | false => exact absurd rfl hn
  | .sequence (n :: rest) =>
    obtain ⟨m, ts, rfl, hts⟩ := tokens_head h
    obtain ⟨ts, vs, rfl, hinner, hvs⟩ := List.map_eq_append_iff.mp hts
    obtain ⟨m', vs, rfl, hnil⟩ := tokens_head hvs
    obtain rfl := List.map_eq_nil_iff.mp hnil
    have hitems := gives_items (n :: rest) (List.cons_ne_nil _ _) hinner
      (⟨.blockEnd, m'⟩ :: us) (.inr ⟨_, us, rfl, .inr rfl⟩) (.blockSequence true) (p :: ps)
    have htells := Gives.tells
      (r := r.before (⟨.blockSequenceStart, m⟩ :: (ts ++ ⟨.blockEnd, m'⟩ :: us)) (.blockSequence true)
        (p :: ps)) hitems
    rw [List.cons_append, List.append_assoc]
    exact Gives.cons rfl rfl (htells.append (.cons rfl rfl (.nil _)))
  | .mapping (e :: rest) =>
    obtain ⟨m, ts, rfl, hts⟩ := tokens_head h
    obtain ⟨ts, vs, rfl, hinner, hvs⟩ := List.map_eq_append_iff.mp hts
    obtain ⟨m', vs, rfl, hnil⟩ := tokens_head hvs
    obtain rfl := List.map_eq_nil_iff.mp hnil
    have hentries := gives_entries (e :: rest) (List.cons_ne_nil _ _) hinner
      (⟨.blockEnd, m'⟩ :: us) (.inr ⟨_, us, rfl, .inr rfl⟩) (.blockKey true) (p :: ps)
    have htells := Gives.tells
      (r := r.before (⟨.blockMappingStart, m⟩ :: (ts ++ ⟨.blockEnd, m'⟩ :: us)) (.blockKey true)
        (p :: ps)) hentries
    rw [List.cons_append, List.append_assoc]
    exact Gives.cons rfl rfl (htells.append (.cons rfl rfl (.nil _)))

/-- The items of a sequence are told up to whatever comes after them. Only where the last one may be
blank this has to be another item or the end of the sequence. -/
theorem gives_items (items : List Node) (hne : items ≠ []) {ts : List Token}
    (h : ts.map Token.kind = Node.itemTokens braces items) (us : List Token)
    (hus : braces = true ∨ ∃ u vs, us = u :: vs ∧ (u.kind = .blockEntry ∨ u.kind = .blockEnd))
    (phase : Phase) (ps : List Phase) :
    Gives (r.before (ts ++ us) phase ps).blockSequence
      (Decode.Tree.itemKinds (Node.itemTrees braces items)) (r.before us (.blockSequence false) ps) := by
  match items with
  | n :: rest =>
    obtain ⟨m, ts, rfl, hts⟩ := tokens_head h
    obtain ⟨ts, vs, rfl, hinner, hvs⟩ := List.map_eq_append_iff.mp hts
    have hrest : Tells (r.before (vs ++ us) (.blockSequence false) ps)
        (Decode.Tree.itemKinds (Node.itemTrees braces rest))
        (r.before us (.blockSequence false) ps) := by
      by_cases hnil : rest = []
      · rw [hnil] at hvs ⊢
        rw [List.map_eq_nil_iff.mp hvs]
        exact .nil _
      · exact Gives.tells (r := r.before (vs ++ us) (.blockSequence false) ps)
          (gives_items rest hnil hvs us hus _ ps)
    rw [Node.itemTrees, Decode.Tree.itemKinds]
    rw [List.cons_append, List.append_assoc]
    refine gives_entry braces r hinner
      (fun hne => gives_node n hne hinner (vs ++ us) false phase _ _) (fun u us hu heq => ?_)
      (fun hnil => ?_) hrest
    · rw [heq]
      exact blockSequence_item r us phase ps m hu
    · obtain ⟨v, ws, hvw, hv⟩ :
          ∃ v ws, vs ++ us = v :: ws ∧ (v.kind = .blockEntry ∨ v.kind = .blockEnd) := by
        cases rest with
        | nil =>
          obtain rfl := List.map_eq_nil_iff.mp hvs
          exact hus.resolve_left fun hbraces =>
            n.tokens_bracketed (by rw [← hbraces, ← hinner, hnil]; rfl)
        | cons n rest =>
          obtain ⟨m, ws, rfl, _⟩ := tokens_head hvs
          exact ⟨_, _, rfl, .inl rfl⟩
      rw [hnil, List.nil_append, hvw]
      exact ⟨m, blockSequence_blank r ws phase ps m hv⟩

theorem gives_entries (entries : List (Key × Node)) (hne : entries ≠ []) {ts : List Token}
    (h : ts.map Token.kind = Node.entryTokens braces entries) (us : List Token)
    (hus : braces = true ∨ ∃ u vs, us = u :: vs ∧ (u.kind = .key ∨ u.kind = .blockEnd))
    (phase : Phase) (ps : List Phase) :
    Gives (r.before (ts ++ us) phase ps).blockKey
      (Decode.Tree.entryKinds (Node.entryTrees braces entries))
      (r.before us (.blockKey false) ps) := by
  match entries with
  | (k, n) :: rest =>
    obtain ⟨m, ts, rfl, hts⟩ := tokens_head h
    obtain ⟨m₁, ts, rfl, hkey⟩ := tokens_head hts
    obtain ⟨m₂, ts, rfl, hvalue⟩ := tokens_head hkey
    obtain ⟨ts, vs, rfl, hinner, hvs⟩ := List.map_eq_append_iff.mp hvalue
    have hrest : Tells (r.before (vs ++ us) (.blockKey false) ps)
        (Decode.Tree.entryKinds (Node.entryTrees braces rest))
        (r.before us (.blockKey false) ps) := by
      by_cases hnil : rest = []
      · rw [hnil] at hvs ⊢
        rw [List.map_eq_nil_iff.mp hvs]
        exact .nil _
      · exact Gives.tells (r := r.before (vs ++ us) (.blockKey false) ps)
          (gives_entries rest hnil hvs us hus _ ps)
    -- the key is one scalar, after which the phase is that of the value
    have htells : Tells (r.before (⟨.value, m₂⟩ :: (ts ++ (vs ++ us))) .blockValue ps)
        ((n.tree braces).kinds ++ Decode.Tree.entryKinds (Node.entryTrees braces rest))
        (r.before us (.blockKey false) ps) := by
      refine Gives.tells (gives_entry braces r hinner
        (fun hne => gives_node n hne hinner (vs ++ us) true .blockValue _ _)
        (fun u us hu heq => ?_) (fun hnil => ?_) hrest)
      · rw [heq]
        exact blockValue_item r us .blockValue ps m₂ hu
      · obtain ⟨v, ws, hvw, hv⟩ :
            ∃ v ws, vs ++ us = v :: ws ∧ (v.kind = .key ∨ v.kind = .blockEnd) := by
          cases rest with
          | nil =>
            obtain rfl := List.map_eq_nil_iff.mp hvs
            exact hus.resolve_left fun hbraces =>
              n.tokens_bracketed (by rw [← hbraces, ← hinner, hnil]; rfl)
          | cons e rest =>
            obtain ⟨m, ws, rfl, _⟩ := tokens_head hvs
            exact ⟨_, _, rfl, .inl rfl⟩
        rw [hnil, List.nil_append, hvw]
        exact ⟨m₂, blockValue_blank r ws .blockValue ps m₂ hv⟩
    rw [← List.append_assoc ts] at htells
    refine Gives.cons rfl ?_ htells
    exact congrArg (fun t => some (Decode.Part.Kind.scalar t _ none)) String.ofList_toList

end
end

end YamlCodec.Event.Reader
