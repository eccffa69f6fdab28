import CompactFont.Proofs.Subset.PassThrough

/-!
What a subset of a CID-keyed font keeps whole: the strings of the table, the FDSelect, a charset of
the font's own, and the places of the Font DICTs, of which those that no retained glyph belongs to
are emptied.
-/

set_option autoImplicit false

namespace CompactFont

open Subset

theorem FontDict.eq_blank_of_content {bytes : ByteArray} {fontDict : FontDict}
    (content : fontDict.content bytes = ⟨[], none⟩) : fontDict = ⟨#[], none⟩ := by
  obtain ⟨entries, privateDict⟩ := fontDict
  have noEntries := congrArg FontDict.Content.entries content
  have noPrivateDict := congrArg FontDict.Content.privateDict content
  simp only [FontDict.content, Dict.content, List.map_eq_nil_iff, Array.toList_eq_nil_iff] at noEntries
  simp only [FontDict.content, Option.map_eq_none_iff] at noPrivateDict
  rw [noEntries, noPrivateDict]

theorem Font.getElem?_fontDicts_content (table : Table) {font : Font} (cid : font.isCid = true)
    (i : Nat) : (font.content table).fontDicts[i]? =
      (font.fontDict? i).map (FontDict.content table.bytes) := by
  obtain ⟨select, fontDicts, keying⟩ := Font.isCid_eq_true.1 cid
  simp [Font.content, Font.fontDict?, keying]

namespace CopyOf

variable {table written : Table} {font copy : Font} {wanted : GlyphSet} {i : Nat}

theorem strings_of_cid (copyOf : CopyOf table font wanted written copy) (cid : font.isCid = true) :
    written.strings.raw written.bytes = table.strings.raw table.bytes := by
  have same := congrArg Font.Content.strings copyOf.content
  simp only [Font.content, Font.Content.restrict, cid, copyOf.isCid, ↓reduceIte] at same
  exact listed_injective same

/-- A Font DICT that no retained glyph belongs to stays where it is, but empty. -/
theorem fontDict?_of_unused (copyOf : CopyOf table font wanted written copy)
    (cid : font.isCid = true) (inside : i < font.fontDictCount)
    (unused : i ∉ (ofFont table font wanted).fontDicts) :
    copy.fontDict? i = some ⟨#[], none⟩ := by
  obtain ⟨source, present⟩ := Font.exists_fontDict? cid inside
  have dropped : (ofFont table font wanted).kept.fontDicts i = false := by
    have absent : (ofFont table font wanted).fontDicts.contains i = false := by
      rw [Bool.eq_false_iff]
      exact fun listed => unused ((DiscoverySet.contains_iff _ _).1 listed)
    have same : (ofFont table font wanted).font = font := rfl
    simp [Subset.kept, absent, same, cid]
  have content := congrArg (fun content => content.fontDicts[i]?) copyOf.content
  simp only [Font.Content.restrict, List.getElem?_mapIdx, Font.getElem?_fontDicts_content _ cid,
    Font.getElem?_fontDicts_content _ copyOf.isCid, present, Option.map_some] at content
  obtain ⟨target, found, blank⟩ := Option.map_eq_some_iff.1 content
  rw [FontDict.Content.restrict, dropped] at blank
  rw [found, FontDict.eq_blank_of_content blank]

/-- The Font DICT of a retained glyph has the entries of its source, and a Private DICT if and only if
its source has one. -/
theorem fontDict_of_retained (copyOf : CopyOf table font wanted written copy)
    (cid : font.isCid = true) {glyph : Nat} (retained : Retains font wanted glyph) :
    ∃ source target, font.fontDict? (font.fontDictOf glyph) = some source ∧
      copy.fontDict? (font.fontDictOf glyph) = some target ∧
      List.Forall₂ (Dict.Entry.CopiedUnless .privateDict (Dict.Entry.Locates target.privateDict)
        table.bytes written.bytes) source.entries.toList target.entries.toList ∧
      target.privateDict.isSome = source.privateDict.isSome := by
  have used : font.fontDictOf glyph ∈ (ofFont table font wanted).fontDicts :=
    mem_fontDicts_ofFont.2 ⟨glyph, retained, rfl⟩
  obtain ⟨source, present⟩ := Font.exists_fontDict? cid (copyOf.lt_of_mem_fontDicts used)
  obtain ⟨target, found, entries⟩ := copyOf.fontDict used present
  rw [copyOf.privateDict_eq, found, Option.bind_some] at entries
  have content := copyOf.fontDict?_content (kept_fontDicts_of_mem used)
  simp only [Font.getElem?_fontDicts_content _ cid, present, found, Option.map_some,
    Option.some.injEq] at content
  have privateDict := congrArg (fun own : FontDict.Content => own.privateDict.isSome) content
  exact ⟨source, target, present, found, entries, by simpa [FontDict.content] using privateDict⟩

/-- The FDSelect of a CID-keyed font is copied, and there are as many Font DICTs as before. -/
theorem keying_of_cid (copyOf : CopyOf table font wanted written copy) {select : FdSelect}
    {fontDicts : Array FontDict} (keying : font.keying = .cid select fontDicts) :
    ∃ ownSelect ownFontDicts, copy.keying = .cid ownSelect ownFontDicts ∧
      ownSelect.span.slice written.bytes = select.span.slice table.bytes ∧
      (∀ glyph, ownSelect.fontDict glyph = select.fontDict glyph) ∧
      ownFontDicts.size = fontDicts.size := by
  obtain ⟨ownSelect, ownFontDicts, _, ownKeying, _, bytes, assigned, _, count⟩ :=
    copyOf.exists_keying
  simp only [Font.content, keying] at bytes assigned
  simp only [Font.fontDictCount, keying] at count
  refine ⟨ownSelect, ownFontDicts, ownKeying, listed_injective bytes, fun glyph => ?_, count⟩
  rw [FdSelect.fontDict, assigned, FdSelect.fontDict]

/-- A charset of a CID-keyed font is copied; instead of a predefined one, every glyph gets its own
number as its name. -/
theorem charset_of_cid (copyOf : CopyOf table font wanted written copy) (cid : font.isCid = true)
    (read : Table.read written.bytes = .ok written) (only : written.fonts = #[copy]) :
    ∃ charset, copy.charset = some charset ∧
      (∀ source ∈ font.charset, charset.span.slice written.bytes = source.span.slice table.bytes) ∧
      (font.charset = none →
        charset.span.slice written.bytes = (Charset.identity font.glyphCount).toByteArray ∧
        (Charset.readNames font.glyphCount).run (.whole written.bytes) charset.span.start =
          .ok (List.range font.glyphCount) charset.span.stop) := by
  obtain ⟨_, _, charset, _, custom, _, _, bytes, _⟩ := copyOf.exists_keying
  have present : written.fonts[0]? = some copy := by rw [only]; rfl
  have names := (Table.readAt_charset read present custom).2
  rw [copyOf.glyphCount_eq] at names
  obtain ⟨select, fontDicts, keying⟩ := Font.isCid_eq_true.1 cid
  simp only [Font.content, keying] at bytes
  refine ⟨charset, custom, fun source own => ?_, fun predefined => ?_⟩
  · rw [Option.mem_def.1 own] at bytes
    exact listed_injective bytes
  · rw [predefined] at bytes
    refine ⟨listed_injective ?_, names bytes⟩
    rw [bytes, listed_toByteArray]

end CopyOf

/-- What of a CID-keyed font does not depend on the glyphs that are retained: a subset that is
written has the String INDEX and the FDSelect of its source, byte by byte, so every glyph belongs to
the same Font DICT as before, whether it is retained or not. A charset of the font's own is copied as
well; instead of a predefined one, every glyph gets its own number as its name. Font DICTs stay where
they are. One that no retained glyph belongs to is empty; any other has the entries of its source,
and a Private DICT if and only if the source has one. -/
theorem subsetFont_preserves_cid {data out : ByteArray} {table : Table} {fontIndex : Nat}
    {wanted : GlyphSet} {subset : Subset} {font : Font} {select : FdSelect}
    {fontDicts : Array FontDict} (read : Table.read data = .ok table)
    (present : table.fonts[fontIndex]? = some font) (keying : font.keying = .cid select fontDicts)
    (completed : subsetFont table fontIndex wanted = .ok (subset, out)) :
    ∃ written copy ownSelect ownFontDicts charset, Table.read out = .ok written ∧
      written.fonts = #[copy] ∧ copy.keying = .cid ownSelect ownFontDicts ∧
      written.strings.raw out = table.strings.raw data ∧
      ownSelect.span.slice out = select.span.slice data ∧
      (∀ glyph, ownSelect.fontDict glyph = select.fontDict glyph) ∧
      copy.charset = some charset ∧
      (∀ source ∈ font.charset, charset.span.slice out = source.span.slice data) ∧
      (font.charset = none →
        charset.span.slice out = (Charset.identity font.glyphCount).toByteArray ∧
        (Charset.readNames font.glyphCount).run (.whole out) charset.span.start =
          .ok (List.range font.glyphCount) charset.span.stop) ∧
      ownFontDicts.size = fontDicts.size ∧
      (∀ i < fontDicts.size, (∀ glyph, Retains font wanted glyph → select.fontDict glyph ≠ i) →
        ownFontDicts[i]? = some ⟨#[], none⟩) ∧
      ∀ glyph, Retains font wanted glyph → ∃ source target,
        fontDicts[select.fontDict glyph]? = some source ∧
        ownFontDicts[select.fontDict glyph]? = some target ∧
        List.Forall₂ (Dict.Entry.CopiedUnless .privateDict (Dict.Entry.Locates target.privateDict)
          data out) source.entries.toList target.entries.toList ∧
        target.privateDict.isSome = source.privateDict.isSome := by
  obtain ⟨_, written, copy, found, _, readAgain, only, copyOf⟩ :=
    exists_copy_of_subsetFont read completed
  cases Option.some.inj (present.symm.trans found)
  obtain rfl := (Table.read_eq_ok.1 read).1
  obtain rfl := (Table.read_eq_ok.1 readAgain).1
  have cid : font.isCid = true := Font.isCid_eq_true.2 ⟨select, fontDicts, keying⟩
  have belongs : ∀ glyph, font.fontDictOf glyph = select.fontDict glyph := by
    simp [Font.fontDictOf, keying]
  have sourceAt : ∀ i, font.fontDict? i = fontDicts[i]? := by
    simp [Font.fontDict?, keying]
  obtain ⟨ownSelect, ownFontDicts, ownKeying, selectBytes, assigned, count⟩ :=
    copyOf.keying_of_cid keying
  have targetAt : ∀ i, copy.fontDict? i = ownFontDicts[i]? := by
    simp [Font.fontDict?, ownKeying]
  obtain ⟨charset, custom, copied, identity⟩ := copyOf.charset_of_cid cid readAgain only
  refine ⟨written, copy, ownSelect, ownFontDicts, charset, readAgain, only, ownKeying,
    copyOf.strings_of_cid cid, selectBytes, assigned, custom, copied, identity, count, ?_, ?_⟩
  · intro i inside unused
    rw [← targetAt]
    apply copyOf.fontDict?_of_unused cid
    · rw [Font.fontDictCount, keying]
      exact inside
    · intro used
      obtain ⟨glyph, retained, same⟩ := mem_fontDicts_ofFont.1 used
      rw [belongs] at same
      exact unused glyph retained same
  · intro glyph retained
    have kept := copyOf.fontDict_of_retained cid retained
    rwa [belongs, sourceAt, targetAt] at kept

/-- Glyph 0 alone is retained. The Font DICT of the other glyphs is emptied, but they still belong to
it. -/
theorem subsetFont_preserves_cid_sharedSubr :
    ∃ table subset out font select fontDicts written copy ownSelect ownFontDicts,
      Table.read sharedSubrTable = .ok table ∧ table.fonts[0]? = some font ∧
      font.keying = .cid select fontDicts ∧
      subsetFont table 0 (.ofList []) = .ok (subset, out) ∧ 1 ∉ subset.fontDicts ∧
      Table.read out = .ok written ∧ written.fonts = #[copy] ∧
      copy.keying = .cid ownSelect ownFontDicts ∧
      ownSelect.span.slice out = select.span.slice sharedSubrTable ∧
      ownSelect.fontDict 2 = 1 ∧ ownFontDicts.size = 2 ∧ ownFontDicts[1]? = some ⟨#[], none⟩ ∧
      ∃ target, ownFontDicts[0]? = some target ∧ target.privateDict.isSome = true := by
  obtain ⟨table, read, font, present, ⟨cid, count, first, last, own⟩, inside, ⟨subset, out⟩,
      completed, unusedDict⟩ :
      ∃ table, Table.read sharedSubrTable = .ok table ∧ ∃ font : Font, font ∈ table.fonts[0]? ∧
        (font.isCid = true ∧ font.fontDictCount = 2 ∧ font.fontDictOf 0 = 0 ∧
          font.fontDictOf 2 = 1 ∧ (font.privateDict 0).isSome = true) ∧ 0 < font.glyphCount ∧
        ∃ written, subsetFont table 0 (.ofList []) = .ok written ∧ 1 ∉ written.1.fontDicts := by
    decide +kernel
  obtain ⟨select, fontDicts, keying⟩ := Font.isCid_eq_true.1 cid
  simp only [Font.fontDictCount, Font.fontDictOf, Font.privateDict, keying] at count first last own
  obtain ⟨written, copy, ownSelect, ownFontDicts, _, readAgain, only, ownKeying, _, bytes, assigned,
    _, _, _, size, unused, used⟩ := subsetFont_preserves_cid read present keying completed
  have retained : ∀ glyph, Retains font (.ofList []) glyph → glyph = 0 := by
    rintro glyph ⟨_, zero | asked⟩
    · exact zero
    · simp [GlyphSet.mem_ofList] at asked
  obtain ⟨source, target, sourceAt, targetAt, _, privateDict⟩ := used 0 ⟨inside, .inl rfl⟩
  rw [first] at sourceAt targetAt
  rw [sourceAt, Option.bind_some] at own
  refine ⟨table, subset, out, font, select, fontDicts, written, copy, ownSelect, ownFontDicts, read,
    present, keying, completed, unusedDict, readAgain, only, ownKeying, bytes,
    (assigned 2).trans last, size.trans count, unused 1 (by omega) ?_, target, targetAt,
    privateDict.trans own⟩
  intro glyph kept
  rw [retained glyph kept, first]
  decide

end CompactFont
