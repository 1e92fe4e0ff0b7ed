import YamlCodec.Proofs.Event.Spot

/-!
# Safe texts in all their places

A text that is safe as a plain scalar is read back as such wherever a writer puts it: as the root, an
item, the value of a key, or a key with a mark of its own or without.
-/

set_option autoImplicit false

namespace YamlCodec
open YamlCodec.Event YamlCodec.Writer Decode

section
variable (o : WriterOptions) {s : String} (hs : Scalar.isPlainSafe s.toList = true)
include hs

/-- At a place the events that come first are those of the collections around it and of the scalar. -/
theorem read_spot {p : Spot} {follow : List Char} (hp : p.Allows o s.toList.length follow) :
    ∃ its more, Event.read (String.ofList (p.text o ++ (s.toList ++ follow))) = its ++ more ∧
      its.map Item.event? =
        (Event.streamStart :: .documentStart :: ((p.parts o.emptyAsBraces).map Part.Kind.event ++
          [.scalar s .plain none])).map some := by
  obtain ⟨t, fuel, hscan, hpast⟩ := Token.scan_spot hs hp
  have hgives := hpast.stays fuel
  have hlength := hgives.length_le
  have hle := p.parts_length_le o.emptyAsBraces
  simp only [List.length_map, List.length_cons, List.length_append] at hlength
  have hfuel : (p.parts o.emptyAsBraces).length + 3 ≤
      8 * (Token.run (fuel + 1) t).tokens.length + 16 := by omega
  obtain ⟨its, more, hitems, hits⟩ := Reader.items_spot hgives hfuel
  rw [String.ofList_toList] at hits
  refine ⟨its, more, ?_, hits⟩
  rw [Event.read, String.toList_ofList, hscan]
  exact hitems

/-- A safe text is read as one plain scalar without a tag in every place, whatever follows there that
does not go on with it. What the scanner has found when it is past the scalar are the tokens of the
place and this one, together with its colon in case of a short key; what is left lies behind. As long as
words hold the columns, a writer is at one of these places before a scalar of its first document, and puts
the text there. -/
theorem plain_text_is_one_scalar :
    (∀ (p : Spot) (follow : List Char), p.Allows o s.toList.length follow →
      (∃ its more, Event.read (String.ofList (p.text o ++ (s.toList ++ follow))) = its ++ more ∧
        its.map Item.event? =
          (Event.streamStart :: .documentStart :: ((p.parts o.emptyAsBraces).map Part.Kind.event ++
            [.scalar s .plain none])).map some) ∧
      ∃ t fuel, Token.scan (p.text o ++ (s.toList ++ follow)) = Token.run fuel t ∧
        t.tokens.reverse.map Token.kind = .streamStart ::
          (p.tokens o.emptyAsBraces ++ .scalar s.toList .plain :: p.closing) ∧
        t.rest <:+ (follow.takeWhile fun c => c != '\x00').tail) ∧
    ∀ es st before, State.Tells o .start (.streamStart :: .documentStart :: es) st before →
      (∀ c ∈ (Session.start .unlimited).columns o.unbounded (.streamStart :: .documentStart :: es),
        o.Holds c) →
      .documentEnd ∉ es → st.stage = .document false →
      ∃ p : Spot, p.Allows o s.toList.length (p.trail o) ∧ p.told = es ∧
        before ++ st.output o (.scalar s .any) = p.text o ++ (s.toList ++ p.trail o) := by
  refine ⟨fun p follow hp => ⟨read_spot o hs hp, ?_⟩, fun es st before htells hw hes hst => ?_⟩
  · obtain ⟨t, fuel, hscan, hpast⟩ := Token.scan_spot hs hp
    exact ⟨t, fuel + 1, hscan, hpast.kinds, hpast.rest⟩
  · obtain ⟨p, hsuits, htold, htext⟩ := State.spot_of_tells o (htells.unbounded hw) hes hst s .any
    have hopened : st.opened? o.unbounded (.scalar s .any) = none := by
      rw [State.opened?, hst]
      rfl
    rw [show render s .any = s.toList by rw [render, if_pos hs]] at hsuits htext
    refine ⟨p, hsuits.allows, htold, ?_⟩
    rw [State.output_unbounded fun c hc => by simp [hopened] at hc]
    exact htext

end

/-- An item before a comment, and where a writer puts it. -/
theorem plain_text_is_one_scalar_item :
    Scalar.isPlainSafe "-x ?:y".toList = true ∧
      (∃ its more, Event.read "- -x ?:y\n# end" = its ++ more ∧
        its.map Item.event? = [some .streamStart, some .documentStart, some .sequenceStart,
          some (.scalar "-x ?:y" .plain none)]) ∧
      ∃ p : Spot, p.told = [.sequenceStart] ∧
        State.output {} ⟨.document false, [⟨.sequence, 0, .lineStart, 0⟩]⟩ (.scalar "-x ?:y" .any) =
          p.text {} ++ ("-x ?:y".toList ++ p.trail {}) := by
  have hs : Scalar.isPlainSafe "-x ?:y".toList = true := by decide
  have hread := ((plain_text_is_one_scalar {} hs).1 (.node [.items []]) ['\n', '#', ' ', 'e', 'n', 'd']
    (.node rfl)).1
  have htells : State.Tells {} .start [.streamStart, .documentStart, .sequenceStart]
      ⟨.document false, [⟨.sequence, 0, .lineStart, 0⟩]⟩ [] :=
    .cons rfl (.cons rfl (.cons rfl (.nil _)))
  obtain ⟨p, _, htold, htext⟩ := (plain_text_is_one_scalar {} hs).2 _ _ _ htells (by decide) (by decide) rfl
  exact ⟨hs, hread, p, htold, htext⟩

end YamlCodec
