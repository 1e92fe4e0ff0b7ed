import YamlCodec.Event.Reader
import YamlCodec.Proofs.Scalar.Case

/-!
# Tags by meaning and by spelling

A tag means an address: the one behind its handle with the suffix, the one between angle brackets, or
its own name behind a mark. It is handed over as a text with a mark in it, and scalars are resolved by
this text. The text of a core tag is known if the tag is verbatim or its handle stands for all that core
tags have in common. A handle that stands for more or for less makes a text that is not known, and some
tags that are not core tags have the text of one.
-/

set_option autoImplicit false

namespace YamlCodec.Scalar

/-- A tag before a scalar as it was written. -/
inductive Naming where
  /-- A suffix behind a handle that stands for an address. -/
  | shorthand (address suffix : List Char)
  /-- A whole address between angle brackets. -/
  | verbatim (address : List Char)
  /-- A name behind a single mark. -/
  | own (name : List Char)

namespace Naming

/-- What the tag means. -/
def meaning : Naming → List Char
  | shorthand address suffix => address ++ suffix
  | verbatim address => address
  | own name => '!' :: name

/-- How the tag is handed over. -/
def text : Naming → List Char
  | shorthand address suffix => address ++ '!' :: suffix
  | verbatim address => '!' :: address
  | own name => '!' :: name

/-- A suffix behind what its handle stands for; a tag in brackets has an empty handle. -/
def behind (address suffix : List Char) : Naming :=
  if address = [] then verbatim suffix
  else if address = ['!'] then own suffix
  else shorthand address suffix

/-- The value of a scalar of this tag. -/
def resolved (n : Naming) (text : String) (style : Style) : Value :=
  resolve text style (some (String.ofList n.text))

/-- The tag counts for nothing. -/
def Ignored (n : Naming) : Prop :=
  ∀ text style, n.resolved text style = resolve text style none

end Naming

namespace CoreTag

/-- What all core tags have in common. -/
def root : List Char := namespaceText.toList

/-- What a core tag means. -/
def address (k : CoreTag) : List Char := root ++ k.suffix.toList

/-- The value of a scalar of a core tag; where the tag does not decide it is that without a tag. -/
def valueOf (k : CoreTag) (text : String) (style : Style) : Value :=
  (k.value? text).getD (resolve text style none)

/-- The tag counts as a core tag. -/
def Decides (k : CoreTag) (n : Naming) : Prop :=
  ∀ text style, n.resolved text style = k.valueOf text style

/-- What may stand behind a first mark so that the whole is the text of a core tag. -/
def marked (k : CoreTag) : List (List Char) :=
  [k.address, root ++ '!' :: k.suffix.toList, '!' :: k.suffix.toList]

end CoreTag

/-! ## Texts handed over -/

/-- A reader hands over the text of the tag that was written. -/
theorem Naming.tagText_eq (r : Event.Reader) (handle suffix : List Char) (mark : Source.Mark) :
    r.tagText handle suffix mark =
      match r.handleAddress? handle with
      | some address => .ok (String.ofList (behind address suffix).text)
      | none => .error ⟨.undeclaredHandle, mark⟩ := by
  rw [Event.Reader.tagText]
  cases r.handleAddress? handle with
  | none => rfl
  | some address =>
    simp only [behind, beq_iff_eq]
    split
    · rename_i h
      simp [h, text]
    · rename_i h
      split
      · rename_i hne
        simp [hne, text]
      · simp [text]

namespace CoreTag

theorem mem_all (k : CoreTag) : k ∈ all := by
  cases k <;> decide

theorem spellings_unique {k k' : CoreTag} : ∀ s ∈ k.spellings, s ∈ k'.spellings → k = k' := by
  cases k <;> cases k' <;> decide +kernel

theorem spellings_eq (k : CoreTag) :
    k.spellings.map String.toList =
      ['!' :: '!' :: k.suffix.toList, k.address, root ++ '!' :: k.suffix.toList] := by
  simp [spellings, address, root]

/-- A text names a core tag if it is one of its spellings but for the mark of a verbatim tag. -/
theorem named?_eq_some_iff {cs : List Char} {k : CoreTag} :
    named? cs = some k ↔ withoutVerbatimMark cs ∈
      ['!' :: '!' :: k.suffix.toList, k.address, root ++ '!' :: k.suffix.toList] := by
  rw [← spellings_eq, List.mem_map]
  constructor
  · intro h
    have hk := List.find?_some h
    simpa using hk
  · rintro ⟨s, hs, heq⟩
    cases h : named? cs with
    | none =>
      have hk := List.find?_eq_none.mp h k (mem_all k)
      simp only [List.any_eq_true, beq_iff_eq, not_exists, not_and] at hk
      exact absurd heq (hk s hs)
    | some k' =>
      have hk' := List.find?_some h
      simp only [List.any_eq_true, beq_iff_eq] at hk'
      obtain ⟨s', hs', heq'⟩ := hk'
      obtain rfl : s' = s := String.toList_inj.mp (heq'.trans heq.symm)
      rw [spellings_unique s' hs' hs]

theorem suffix_injective {k k' : CoreTag} (h : k.suffix = k'.suffix) : k = k' := by
  cases k <;> cases k' <;> simp_all [suffix]

theorem root_append (cs : List Char) : ∃ rest, root ++ cs = 't' :: rest := ⟨_, rfl⟩

theorem mark_not_mem_address (k : CoreTag) : '!' ∉ k.address := by
  cases k <;> decide

theorem mark_ne_root (cs rest : List Char) : '!' :: cs ≠ root ++ rest := by
  obtain ⟨tail, htail⟩ := root_append rest
  rw [htail]
  simp

/-- Behind a mark a core tag is known by its address, and by what makes a spelling of it with the mark. -/
theorem named?_mark_iff {cs : List Char} {k : CoreTag} :
    named? ('!' :: cs) = some k ↔ cs ∈ k.marked := by
  have hmark : withoutVerbatimMark ('!' :: cs) = if root.isPrefixOf cs then cs else '!' :: cs := rfl
  rw [named?_eq_some_iff, hmark, marked]
  simp only [List.mem_cons, List.not_mem_nil, or_false, address]
  split
  · rename_i hroot
    obtain ⟨rest, rfl⟩ := List.isPrefixOf_iff_prefix.mp hroot
    simp [(mark_ne_root _ rest).symm]
  · rename_i hroot
    have haway (rest : List Char) : cs ≠ root ++ rest := by
      rintro rfl
      exact hroot (List.isPrefixOf_iff_prefix.mpr (List.prefix_append root rest))
    simp [mark_ne_root, haway]

/-- A core tag that is divided is known just if the handle stands for the root. -/
theorem named?_divided_iff {k k' : CoreTag} {head tail : List Char} (hhead : head ≠ [])
    (h : head ++ tail = k.address) :
    named? (head ++ '!' :: tail) = some k' ↔ head = root ∧ k = k' := by
  have hnot : '!' ∉ head ++ tail := h ▸ mark_not_mem_address k
  have hnothead : '!' ∉ head := fun hm => hnot (List.mem_append_left tail hm)
  have hnottail : '!' ∉ tail := fun hm => hnot (List.mem_append_right head hm)
  obtain ⟨c, cs, rfl⟩ := List.exists_cons_of_ne_nil hhead
  have hc : c ≠ '!' := fun heq => hnothead (heq ▸ List.mem_cons_self)
  have hmark : withoutVerbatimMark (c :: cs ++ '!' :: tail) = c :: cs ++ '!' :: tail := by
    unfold withoutVerbatimMark
    split
    · rename_i heq
      exact absurd (List.cons.inj heq).1 hc
    · rfl
  rw [named?_eq_some_iff, hmark]
  simp only [List.mem_cons, List.not_mem_nil, or_false]
  have hshort : c :: cs ++ '!' :: tail ≠ '!' :: '!' :: k'.suffix.toList := by
    intro heq
    exact hc (List.cons.inj heq).1
  have hwhole : c :: cs ++ '!' :: tail ≠ k'.address := by
    intro heq
    apply mark_not_mem_address k'
    rw [← heq]
    simp
  simp only [hshort, hwhole, false_or]
  rw [List.append_cons_inj_of_notMem hnothead hnottail]
  constructor
  · rintro ⟨hroot, -, hsuffix⟩
    rw [hroot, address, List.append_cancel_left_eq, hsuffix] at h
    exact ⟨hroot, suffix_injective (String.toList_inj.mp h.symm)⟩
  · rintro ⟨hroot, rfl⟩
    rw [hroot, address, List.append_cancel_left_eq] at h
    exact ⟨hroot, rfl, h⟩

/-- For some text the tag tells another value than none. -/
theorem exists_valueOf_ne (k : CoreTag) :
    ∃ text style, k.valueOf text style ≠ resolve text style none := by
  have hne (text : String) (style : Style)
      (h : (k.valueOf text style).typeName ≠ (resolve text style none).typeName) :
      ∃ text style, k.valueOf text style ≠ resolve text style none :=
    ⟨text, style, fun heq => h (congrArg Value.typeName heq)⟩
  cases k with
  | null => exact hne "a" .plain (by decide)
  | bool => exact hne "a" .plain (by decide)
  | int => exact hne "1" .doubleQuoted (by decide)
  | float => exact hne "1" .doubleQuoted (by decide)
  | str => exact hne "1" .plain (by decide)

end CoreTag

section
variable {n : Naming}

/-- A tag decides where its text is known. -/
theorem CoreTag.Decides.of_named {k : CoreTag} (h : CoreTag.named? n.text = some k) : k.Decides n := by
  intro text style
  rw [Naming.resolved, CoreTag.valueOf, resolve_eq, resolve_eq text style none, Option.bind_some,
    String.toList_ofList, h]
  rfl

theorem CoreTag.Decides.not_ignored {k : CoreTag} (h : k.Decides n) : ¬ n.Ignored := by
  intro hi
  obtain ⟨text, style, hne⟩ := k.exists_valueOf_ne
  exact hne ((h text style).symm.trans (hi text style))

/-- A tag counts for nothing just if its text is not known. -/
theorem Naming.ignored_iff : n.Ignored ↔ ∀ k, CoreTag.named? n.text ≠ some k := by
  constructor
  · intro hi k h
    exact (CoreTag.Decides.of_named h).not_ignored hi
  · intro h text style
    have hnone : CoreTag.named? n.text = none := Option.eq_none_iff_forall_ne_some.mpr h
    rw [Naming.resolved, resolve_eq, resolve_eq text style none, Option.bind_some,
      String.toList_ofList, hnone]
    rfl

end

theorem CoreTag.decides_divided_iff {k : CoreTag} {head tail : List Char} (hhead : head ≠ [])
    (h : head ++ tail = k.address) :
    (k.Decides (.shorthand head tail) ↔ head = CoreTag.root) ∧
      ((Naming.shorthand head tail).Ignored ↔ head ≠ CoreTag.root) := by
  have hnamed {k' : CoreTag} :
      named? (head ++ '!' :: tail) = some k' ↔ head = CoreTag.root ∧ k = k' :=
    named?_divided_iff hhead h
  have hignored : (Naming.shorthand head tail).Ignored ↔ head ≠ CoreTag.root := by
    rw [Naming.ignored_iff]
    constructor
    · exact fun hi hroot => hi k (hnamed.mpr ⟨hroot, rfl⟩)
    · exact fun hroot k' hk' => hroot (hnamed.mp hk').1
  refine ⟨⟨fun hd => ?_, fun hroot => .of_named (hnamed.mpr ⟨hroot, rfl⟩)⟩, hignored⟩
  by_contra hroot
  exact hd.not_ignored (hignored.mpr hroot)

theorem CoreTag.mark_mem_marked_iff {k : CoreTag} {name : List Char} :
    '!' :: name ∈ k.marked ↔ name = k.suffix.toList := by
  simp [marked, address, mark_ne_root]

/-- Tags are handed over as texts. A core tag decides the value of every scalar if it is verbatim, and
behind a handle just if the handle stands for the root of core tags; divided elsewhere it counts for
nothing. A tag of one's own counts for nothing just if what stands behind its first mark does not make
the text of a core tag, and else it decides as this core tag. -/
theorem tags_count_by_their_text (r : Event.Reader) (mark : Source.Mark) (k : CoreTag)
    (handle suffix head tail name : List Char) :
    (r.tagText handle suffix mark =
      match r.handleAddress? handle with
      | some address => .ok (String.ofList (Naming.behind address suffix).text)
      | none => .error ⟨.undeclaredHandle, mark⟩) ∧
    (head ≠ [] → (Naming.shorthand head tail).meaning = k.address →
      (k.Decides (.shorthand head tail) ↔ head = CoreTag.root) ∧
      ((Naming.shorthand head tail).Ignored ↔ head ≠ CoreTag.root)) ∧
    k.Decides (.verbatim k.address) ∧
    ((Naming.own name).Ignored ↔ ∀ k' : CoreTag, name ∉ k'.marked) ∧
    (name ∈ k.marked → k.Decides (.own name)) ∧
    ((Naming.verbatim ('!' :: name)).Ignored ↔ ∀ k' : CoreTag, name ≠ k'.suffix.toList) ∧
    (name = k.suffix.toList → k.Decides (.verbatim ('!' :: name))) := by
  refine ⟨Naming.tagText_eq r handle suffix mark,
    fun hhead h => CoreTag.decides_divided_iff hhead h, ?_, ?_, fun hk => ?_, ?_, fun hk => ?_⟩
  · exact .of_named (CoreTag.named?_mark_iff.mpr List.mem_cons_self)
  · rw [Naming.ignored_iff]
    exact forall_congr' fun k' => not_congr CoreTag.named?_mark_iff
  · exact .of_named (CoreTag.named?_mark_iff.mpr hk)
  · rw [Naming.ignored_iff]
    exact forall_congr' fun k' =>
      not_congr (CoreTag.named?_mark_iff.trans CoreTag.mark_mem_marked_iff)
  · exact .of_named (CoreTag.named?_mark_iff.mpr (CoreTag.mark_mem_marked_iff.mpr hk))

/-- The integer tag behind a handle that stands for its first part and one letter is not known, and a
tag of one's own in brackets is taken for the integer tag. -/
theorem tags_missed_and_mistaken :
    ((Naming.shorthand "tag:yaml.org,2002:i".toList "nt".toList).meaning = CoreTag.int.address ∧
      (Naming.shorthand "tag:yaml.org,2002:i".toList "nt".toList).resolved "8" .singleQuoted =
        .string "8" ∧
      CoreTag.int.valueOf "8" .singleQuoted = .integer 8) ∧
    (Naming.verbatim "!int".toList).meaning = (Naming.own "int".toList).meaning ∧
      (Naming.verbatim "!int".toList).resolved "7" .singleQuoted = .integer 7 ∧
      resolve "7" .singleQuoted none = .string "7" :=
  ⟨⟨by decide +kernel, rfl, rfl⟩, rfl, rfl, rfl⟩

end YamlCodec.Scalar
